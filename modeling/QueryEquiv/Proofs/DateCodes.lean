import QueryEquiv.Proofs.Running
import QueryEquiv.Proofs.ThreeValued
import QueryEquiv.Search.Model

/-!
# Dates as numbers of days

A date enters a formula as a number of days and leaves it as a date again. Both ways rest on the number of
the day in the calendar: numbers of days are ordered as the dates are, so that no two dates share one, and
every number in the range of the calendar is that of the date computed from it. Beyond that range the
date is the nearest one that there is.

A date and a time of day make one number, too. There the time counts more than the date, so that these numbers
are ordered as the moments are in some cases only (`moments_ordered_iff`).
-/

namespace QueryEquiv

open List Nat

/-! ## Lengths of months and years -/

theorem daysBeforeMonth_succ (y : Nat) {m : Nat} (hm : 1 ≤ m) :
    daysBeforeMonth y (m + 1) = daysBeforeMonth y m + daysInMonth y m := by
  obtain ⟨k, rfl⟩ := Nat.exists_eq_add_of_le' hm
  simp [daysBeforeMonth, range_succ, foldl_append]

theorem daysBeforeMonth_mono (y : Nat) {m n : Nat} (hm : 1 ≤ m) (h : m ≤ n) : daysBeforeMonth y m ≤ daysBeforeMonth y n := by
  induction n, h using le_induction with
  | base => rfl
  | succ n h ih =>
    rw [daysBeforeMonth_succ y (hm.trans h)]
    exact le_add_right_of_le ih

theorem daysBeforeMonth_thirteen (y : Nat) : daysBeforeMonth y 13 = if isLeapYear y then 366 else 365 := by
  have h : List.range (13 - 1) = [0, 1, 2, 3, 4, 5, 6, 7, 8, 9, 10, 11] := rfl
  simp only [daysBeforeMonth, h]
  cases hy : isLeapYear y <;> simp [daysInMonth, hy]

theorem daysBeforeYear_succ {y : Nat} (hy : 1 ≤ y) : daysBeforeYear (y + 1) = daysBeforeYear y + daysBeforeMonth y 13 := by
  obtain ⟨k, rfl⟩ := Nat.exists_eq_add_of_le' hy
  have h₁ : (k + 1) % 100 = 0 → (k + 1) % 4 = 0 := by omega
  have h₂ : (k + 1) % 400 = 0 → (k + 1) % 100 = 0 := by omega
  have h₃ : k / 100 ≤ k / 4 := by omega
  simp only [daysBeforeMonth_thirteen, daysBeforeYear, isLeapYear, Nat.add_sub_cancel, Nat.succ_div,
    dvd_iff_mod_eq_zero, Bool.and_eq_true, Bool.or_eq_true, decide_eq_true_eq]
  clear hy
  generalize (k + 1) % 4 = a at *
  generalize (k + 1) % 100 = b at *
  generalize (k + 1) % 400 = c at *
  grind

theorem daysBeforeYear_mono {y z : Nat} (hy : 1 ≤ y) (h : y ≤ z) : daysBeforeYear y ≤ daysBeforeYear z := by
  induction z, h using le_induction with
  | base => rfl
  | succ z h ih =>
    rw [daysBeforeYear_succ (hy.trans h)]
    exact le_add_right_of_le ih

theorem daysBeforeYear_periods (a : Nat) {b c e : Nat} (hb : b < 4) (hc : c < 25) (he : e < 4) :
    daysBeforeYear (a * 400 + b * 100 + c * 4 + e + 1) = a * 146097 + b * 36524 + c * 1461 + e * 365 := by
  have h₄ : (a * 400 + b * 100 + c * 4 + e) / 4 = a * 100 + b * 25 + c := by omega
  have h₁₀₀ : (a * 400 + b * 100 + c * 4 + e) / 100 = a * 4 + b := by omega
  have h₄₀₀ : (a * 400 + b * 100 + c * 4 + e) / 400 = a := by omega
  rw [daysBeforeYear, Nat.add_sub_cancel, h₄, h₁₀₀, h₄₀₀]
  omega

namespace Date

variable {d e : Date}

theorem isValid_iff : d.isValid = true ↔ (1 ≤ d.year ∧ d.year ≤ 9999) ∧ (1 ≤ d.month ∧ d.month ≤ 12) ∧
    1 ≤ d.day ∧ d.day ≤ daysInMonth d.year d.month := by
  simp [isValid, and_assoc]

/-! ## The number of a day -/

/-- The order of the calendar: by year, then month, then day. -/
def Before (d e : Date) : Prop :=
  d.year < e.year ∨ d.year = e.year ∧ (d.month < e.month ∨ d.month = e.month ∧ d.day < e.day)

theorem dayOfYear_le (hd : d.isValid) {m : Nat} (hm : d.month < m) :
    daysBeforeMonth d.year d.month + d.day ≤ daysBeforeMonth d.year m := by
  obtain ⟨-, ⟨h, -⟩, -, hday⟩ := isValid_iff.1 hd
  have := daysBeforeMonth_mono d.year (le_add_left 1 d.month) hm
  have := daysBeforeMonth_succ d.year h
  omega

theorem ordinal_lt_of_before (hd : d.isValid) (he : e.isValid) (h : d.Before e) : d.ordinal < e.ordinal := by
  obtain ⟨⟨hy, -⟩, ⟨-, hm⟩, -⟩ := isValid_iff.1 hd
  obtain ⟨-, -, hday, -⟩ := isValid_iff.1 he
  unfold ordinal
  rcases h with h | ⟨h, h' | ⟨h', h''⟩⟩
  · have := dayOfYear_le hd (m := 13) (by omega)
    have := daysBeforeYear_succ hy
    have := daysBeforeYear_mono (le_add_left 1 d.year) h
    omega
  · have := dayOfYear_le hd h'
    rw [← h]
    omega
  · rw [h, h']
    omega

theorem before_trichotomy (d e : Date) : d.Before e ∨ d = e ∨ e.Before d := by
  obtain ⟨y, m, n⟩ := d
  obtain ⟨y', m', n'⟩ := e
  simp only [Before, mk.injEq]
  omega

/-- Dates are ordered as their numbers are. -/
theorem ordinal_lt_iff (hd : d.isValid) (he : e.isValid) : d.ordinal < e.ordinal ↔ d.Before e := by
  refine ⟨fun h ↦ ?_, ordinal_lt_of_before hd he⟩
  rcases before_trichotomy d e with h' | rfl | h'
  · exact h'
  · exact absurd h (lt_irrefl _)
  · exact absurd h (ordinal_lt_of_before he hd h').asymm

theorem ordinal_inj (hd : d.isValid) (he : e.isValid) (h : d.ordinal = e.ordinal) : d = e := by
  rcases before_trichotomy d e with h' | h' | h'
  · exact absurd h (ordinal_lt_of_before hd he h').ne
  · exact h'
  · exact absurd h (ordinal_lt_of_before he hd h').ne'

/-! ## The date with a number -/

/-- The months are gone through from month `m` on; `n` days of the rest of the year are left. -/
theorem inYear_go_spec {y : Nat} (hy : 1 ≤ y ∧ y ≤ 9999) (fuel m n : Nat) (hm : 1 ≤ m) (hfuel : m + fuel = 12)
    (hn : daysBeforeMonth y m + n < daysBeforeMonth y 13) : (inYear.go y fuel m n).isValid ∧
      (inYear.go y fuel m n).ordinal = daysBeforeYear y + daysBeforeMonth y m + n + 1 := by
  have here {m n : Nat} (hm : 1 ≤ m ∧ m ≤ 12) (hn : n < daysInMonth y m) :
      (⟨y, m, n + 1⟩ : Date).isValid ∧
        (⟨y, m, n + 1⟩ : Date).ordinal = daysBeforeYear y + daysBeforeMonth y m + n + 1 :=
    ⟨isValid_iff.2 ⟨hy, hm, le_add_left 1 n, hn⟩, by simp only [ordinal]; omega⟩
  have hnext := daysBeforeMonth_succ y hm
  induction fuel generalizing m n with
  | zero =>
    obtain rfl : m = 12 := by omega
    exact here (by omega) (by rw [hnext] at hn; omega)
  | succ fuel ih =>
    unfold inYear.go
    split
    · exact here (by omega) ‹_›
    · have hm' := daysBeforeMonth_succ y (le_add_left 1 m)
      obtain ⟨hvalid, hordinal⟩ := ih (m + 1) (n - daysInMonth y m) (by omega) (by omega) (by omega) hm'
      exact ⟨hvalid, by omega⟩

theorem inYear_spec {y n : Nat} (hy : 1 ≤ y ∧ y ≤ 9999) (hn : n < daysBeforeMonth y 13) :
    (inYear y n).isValid ∧ (inYear y n).ordinal = daysBeforeYear y + n + 1 := by
  have h₀ : daysBeforeMonth y 1 = 0 := rfl
  have h := inYear_go_spec hy 11 1 n le_rfl rfl (by omega)
  rwa [h₀] at h

theorem lastOfYear_spec {y : Nat} (hy : 1 ≤ y ∧ y ≤ 9999) :
    (⟨y, 12, 31⟩ : Date).isValid ∧ (⟨y, 12, 31⟩ : Date).ordinal = daysBeforeYear (y + 1) := by
  refine ⟨isValid_iff.2 ⟨hy, by simp, by simp [daysInMonth]⟩, ?_⟩
  have h : daysBeforeMonth y 13 = daysBeforeMonth y 12 + 31 := daysBeforeMonth_succ y (m := 12) (by omega)
  simp only [ordinal, daysBeforeYear_succ hy.1, h]
  omega

theorem last_ordinal : last.ordinal = 3652059 := by decide

theorem ofOrdinal_spec {o : Nat} (h1 : 1 ≤ o) (h2 : o ≤ last.ordinal) :
    (ofOrdinal o).isValid ∧ (ofOrdinal o).ordinal = o := by
  rw [last_ordinal] at h2
  have parts (n k : Nat) (hk : 0 < k) : ∃ q r, n / k = q ∧ n % k = r ∧ k * q + r = n ∧ r < k :=
    ⟨_, _, rfl, rfl, div_add_mod n k, mod_lt n hk⟩
  obtain ⟨a, n, ha, hn, ha', hn'⟩ := parts (o - 1) 146097 (by decide)
  obtain ⟨b, n₁, hb, hn₁, hb', hn₁'⟩ := parts n 36524 (by decide)
  obtain ⟨c, n₂, hc, hn₂, hc', hn₂'⟩ := parts n₁ 1461 (by decide)
  obtain ⟨e, n₃, he, hn₃, he', hn₃'⟩ := parts n₂ 365 (by decide)
  simp only [ofOrdinal, ha, hn, hb, hn₁, hc, hn₂, he, hn₃, Bool.or_eq_true, decide_eq_true_eq, add_sub_cancel]
  clear ha hn hb hn₁ hc hn₂ he hn₃ parts
  split
  · -- The last day of a period of 4 or of 400 years.
    obtain ⟨hvalid, hordinal⟩ := lastOfYear_spec (y := a * 400 + b * 100 + c * 4 + e) (by omega)
    refine ⟨hvalid, hordinal.trans ?_⟩
    by_cases hb : b = 4
    · have h := daysBeforeYear_periods (a + 1) (b := 0) (c := 0) (e := 0) (by omega) (by omega) (by omega)
      rw [show a * 400 + b * 100 + c * 4 + e = (a + 1) * 400 + 0 * 100 + 0 * 4 + 0 by omega, h]
      omega
    · have h := daysBeforeYear_periods a (b := b) (c := c + 1) (e := 0) (by omega) (by omega) (by omega)
      rw [show a * 400 + b * 100 + c * 4 + e = a * 400 + b * 100 + (c + 1) * 4 + 0 by omega, h]
      omega
  · have hlength (y : Nat) : 365 ≤ daysBeforeMonth y 13 := by rw [daysBeforeMonth_thirteen]; split <;> omega
    obtain ⟨hvalid, hordinal⟩ := inYear_spec (y := a * 400 + b * 100 + c * 4 + e + 1) (by omega) (hn₃'.trans_le (hlength _))
    refine ⟨hvalid, hordinal.trans ?_⟩
    rw [daysBeforeYear_periods a (by omega) (by omega) (by omega)]
    omega

/-! ## Days since the epoch -/

theorem ordinal_le_last (hd : d.isValid) : d.ordinal ≤ last.ordinal := by
  obtain ⟨⟨-, hy⟩, ⟨-, hm⟩, -, hday⟩ := isValid_iff.1 hd
  have h31 : daysInMonth d.year d.month ≤ 31 := by unfold daysInMonth; split_ifs <;> omega
  have hlast : ¬ last.Before d := by simp only [Before, last]; omega
  exact le_of_not_gt fun h ↦ hlast ((ordinal_lt_iff (by decide) hd).1 h)

theorem one_le_ordinal (hd : d.isValid) : 1 ≤ d.ordinal := by
  have := (isValid_iff.1 hd).2.2.1
  unfold ordinal
  omega

/-- The date of a number of days is a date, and its number is the given one as far as there are dates. -/
theorem ofDays_spec (v : Int) : (ofDays v).isValid ∧ (ofDays v).days = max first.days (min v last.days) := by
  have hfirst : first.ordinal = 1 := by decide
  have hlast := one_le_ordinal (d := last) (by decide)
  simp only [ofDays, days, hfirst]
  split
  · exact ⟨by decide, by omega⟩
  · split
    · exact ⟨by decide, by omega⟩
    · obtain ⟨hvalid, hordinal⟩ := ofOrdinal_spec (o := (v + epoch.ordinal).toNat) (by omega) (by omega)
      exact ⟨hvalid, by omega⟩

theorem ofDays_days (hd : d.isValid) : ofDays d.days = d := by
  obtain ⟨hvalid, hdays⟩ := ofDays_spec d.days
  refine ordinal_inj hvalid hd ?_
  have := one_le_ordinal hd
  have := ordinal_le_last hd
  have hfirst : first.ordinal = 1 := by decide
  simp only [days, hfirst] at hdays ⊢
  omega

/-! ## Texts of dates -/

theorem padded_succ {w : Nat} (hw : 1 ≤ w) (n : Nat) :
    (padded (w + 1) n).toList = (padded w (n / 10)).toList ++ [(n % 10).digitChar] := by
  simp only [padded, padded.zeroPad, toString_eq_repr, repr_eq_ofList_toDigits, String.toList_append,
    String.toList_ofList, String.length_ofList]
  rw [toDigits_eq_if (b := 10) (n := n) (by decide)]
  split
  case isTrue hn =>
    obtain ⟨k, rfl⟩ := Nat.exists_eq_add_of_le' hw
    have hzero : toDigits 10 0 = ['0'] := rfl
    rw [div_eq_of_lt hn, mod_eq_of_lt hn, hzero]
    simp [replicate_succ']
  case isFalse => simp

/-- Numbers of one width are ordered as their texts are, whatever follows them. -/
theorem padded_lt {w n m : Nat} (hw : 1 ≤ w) (hm : m < 10 ^ w) (h : n < m) (s t : List Char) :
    (padded w n).toList ++ s < (padded w m).toList ++ t := by
  have digit {a b : Nat} (hb : b < 10) (h : a < b) (s t : List Char) : a.digitChar :: s < b.digitChar :: t := by
    refine cons_lt_cons_iff.2 (.inl ?_)
    interval_cases b <;> interval_cases a <;> decide
  induction w, hw using le_induction generalizing n m s t with
  | base =>
    have single {a : Nat} (ha : a < 10) : (padded 1 a).toList = [a.digitChar] := by
      interval_cases a <;> decide
    rw [single hm, single (h.trans hm)]
    exact digit hm h s t
  | succ w hw ih =>
    rw [padded_succ hw, padded_succ hw, append_assoc, append_assoc]
    rcases lt_or_ge (n / 10) (m / 10) with h' | h'
    · exact ih (by omega) h' _ _
    · obtain h'' : n / 10 = m / 10 := by omega
      rw [h'']
      exact List.Lex.append_left _ (digit (mod_lt m (by decide)) (by omega) s t) _

theorem text_lt_of_before (he : e.isValid) (h : d.Before e) : d.text < e.text := by
  obtain ⟨⟨-, hy⟩, ⟨-, hm⟩, -, hday⟩ := isValid_iff.1 he
  have h31 : daysInMonth e.year e.month ≤ 31 := by unfold daysInMonth; split_ifs <;> omega
  rw [String.lt_iff_toList_lt]
  simp only [text, String.toList_append, append_assoc]
  have under (l : List Char) {s t : List Char} (h : s < t) : l ++ s < l ++ t := List.Lex.append_left _ h l
  rcases h with h | ⟨hyear, h | ⟨hmonth, h⟩⟩
  · exact padded_lt (by decide) (by omega) h _ _
  · rw [hyear]
    exact under _ (under _ (padded_lt (by decide) (by omega) h _ _))
  · rw [hyear, hmonth]
    have := padded_lt (w := 2) (by decide) (by omega) h [] []
    simp only [append_nil] at this
    exact under _ (under _ (under _ (under _ this)))

/-- A greater number of days is read as the text of a later date, or of the same. -/
theorem text_ofDays_le {v v' : Int} (h : v ≤ v') : (ofDays v).text ≤ (ofDays v').text := by
  obtain ⟨hd, hdays⟩ := ofDays_spec v
  obtain ⟨he, hdays'⟩ := ofDays_spec v'
  rcases before_trichotomy (ofDays v) (ofDays v') with hb | hb | hb
  · exact (text_lt_of_before he hb).le
  · exact hb ▸ le_rfl
  · have := ordinal_lt_of_before he hd hb
    simp only [days] at hdays hdays'
    omega

end Date

open Search

/-- A date that is written into a formula is read back as its text. Every number in a column of dates is
read as the text of the date that is nearest to it, and greater numbers are read as greater texts. -/
theorem dates_read_back (codes : Codes) (w : Workspace) (timed : Bool) {c : Column} (hc : typeOf c = .ok "date") :
    (∀ d : Date, d.isValid → ∃ v, exec (Expression.constant timed (.date d)) w = (.ok (Reading.certain (.ofInt v)), w) ∧
        (typeOf c).map (decode codes · v) = .ok (.str d.text)) ∧
      (∀ v, ∃ d : Date, d.isValid ∧ d.days = max Date.first.days (min v Date.last.days) ∧
        (typeOf c).map (decode codes · v) = .ok (.str d.text)) ∧
      ∀ v v', v ≤ v' → ∃ s s', (typeOf c).map (decode codes · v) = .ok (.str s) ∧
        (typeOf c).map (decode codes · v') = .ok (.str s') ∧ s ≤ s' := by
  have shown (v : Int) : (typeOf c).map (decode codes · v) = .ok (.str (Date.ofDays v).text) := by
    rw [hc]
    rfl
  refine ⟨fun d hd ↦ ⟨d.days, rfl, ?_⟩, fun v ↦ ?_, fun v v' h ↦ ?_⟩
  · rw [shown, Date.ofDays_days hd]
  · obtain ⟨hvalid, hdays⟩ := Date.ofDays_spec v
    exact ⟨_, hvalid, hdays, shown v⟩
  · exact ⟨_, _, shown v, shown v', Date.text_ofDays_le h⟩

/-- A leap day in a column of dates whose type is written in capitals. -/
theorem leapDay_read_back :
    let born : Column := ⟨0, .str "born", .str "DATE", .null, .null, []⟩
    typeOf born = .ok "date" ∧ ∃ v,
      exec (Expression.constant true (.date ⟨2000, 2, 29⟩)) {} = (.ok (Reading.certain (.ofInt v)), {}) ∧
        (typeOf born).map (decode {} · v) = .ok (.str "2000-02-29") :=
  have h : typeOf ⟨0, .str "born", .str "DATE", .null, .null, []⟩ = .ok "date" := by decide +kernel
  ⟨h, (dates_read_back {} {} true h).1 ⟨2000, 2, 29⟩ (by decide)⟩

/-! ## Moments -/

open Expression

/-- `TIMESTAMP(d, t)` -/
def momentOf (d : Date) (t : TimeOfDay) : Node :=
  .expression (.str "timestamp") [.literal (.date d) .null, .literal (.time t) .null] .null

/-- In the number of a moment a second counts as much as a hundred thousand days. Two moments share a number just if
the seconds by which one is later on the clock make up for the days by which the other is later. Numbers
compare as moments do, first by the date, just if the days between two dates outweigh the seconds. -/
theorem moments_ordered_iff (sub : Subquery) (place : Nat) (row : Int) (outer : Option Int) (targets : Option (List Node))
    (reader depth : Nat) (w : Workspace) {d e : Date} (hd : d.isValid) (he : e.isValid) (t u : TimeOfDay) :
    let number (n : Node) := exec (encode (atRow sub place row outer targets reader (depth + 1)) n) w
    ∃ r s, number (momentOf d t) = (.ok r, w) ∧ number (momentOf e u) = (.ok s, w) ∧
      ∀ I : Interpretation, ∃ m n, I.read r = some m ∧ I.read s = some n ∧
        (m = n ↔ (t.seconds - u.seconds) * 100000 = e.days - d.days) ∧
        ((m < n ↔ d.Before e ∨ d = e ∧ t.seconds < u.seconds) ↔
          (d.Before e → (t.seconds - u.seconds) * 100000 < e.days - d.days) ∧
          (e.Before d → (u.seconds - t.seconds) * 100000 ≤ d.days - e.days)) := by
  refine ⟨_, _, rfl, rfl, fun I ↦ ⟨t.seconds * 100000 + d.days, u.seconds * 100000 + e.days, rfl, rfl, by omega, ?_⟩⟩
  have heq : d = e ↔ d.ordinal = e.ordinal := ⟨congrArg _, Date.ordinal_inj hd he⟩
  rw [← Date.ordinal_lt_iff hd he, ← Date.ordinal_lt_iff he hd, heq]
  simp only [Date.days]
  omega

/-- A second after midnight has a greater number than the midnight of the next day. -/
theorem momentOf_nextMidnight : ∃ r s,
    let number (n : Node) := exec (encode (atRow (fun _ _ ↦ throw .broken) 0 0 none none 0 1) n) {}
    number (momentOf ⟨1000, 1, 1⟩ ⟨0, 0, 1⟩) = (.ok r, {}) ∧ number (momentOf ⟨1000, 1, 2⟩ ⟨0, 0, 0⟩) = (.ok s, {}) ∧
      ∀ I : Interpretation, ∃ m n, I.read r = some m ∧ I.read s = some n ∧ n < m := by
  obtain ⟨r, s, hr, hs, h⟩ := moments_ordered_iff (fun _ _ ↦ throw .broken) 0 0 none none 0 0 {}
    (d := ⟨1000, 1, 1⟩) (e := ⟨1000, 1, 2⟩) (by decide) (by decide) ⟨0, 0, 1⟩ ⟨0, 0, 0⟩
  refine ⟨r, s, hr, hs, fun I ↦ ?_⟩
  obtain ⟨m, n, hm, hn, heq, hiff⟩ := h I
  have hbefore : Date.Before ⟨1000, 1, 1⟩ ⟨1000, 1, 2⟩ := by simp [Date.Before]
  have hne : m ≠ n := fun h ↦ absurd (heq.1 h) (by decide)
  have hlt : ¬ m < n := fun h ↦ absurd ((hiff.1 (iff_of_true h (.inl hbefore))).1 hbefore) (by decide)
  exact ⟨m, n, hm, hn, by omega⟩

end QueryEquiv
