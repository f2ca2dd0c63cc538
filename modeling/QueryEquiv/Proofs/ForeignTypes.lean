import QueryEquiv.Proofs.Loading

/-!
# Types of foreign keys

A column that only a foreign key declares gets its type from the table that the key refers to. It is looked for among
the key columns of that table, letter by letter. If it is found, both columns have the same type, except that an
enumeration lists what the foreign key gives itself (`foreign_type`). A column that is not part of the key, or whose name
is written in other letters, is not found, and the foreign key gets no type at all.
-/

namespace QueryEquiv

open Text Outcome List Workspace Except Value Loading

theorem Value.same_str_iff {v : Value} {s : String} : v.same (.str s) = true ↔ v = .str s := by
  cases v <;> simp [same]

namespace Workspace.Loading

variable {l l' : Loading} {schema col : Value}

theorem addKey_ok (h : l.addKey col = .ok l') : ∃ s parts, col.entry "Name" = .ok (.str s) ∧
    typeParts col = .ok parts ∧ l.add (lower s) parts.head? (.ok (parts.drop 1)) = .ok l' := by
  simp only [addKey, addTyped, bind_ok_iff] at h
  obtain ⟨_, hname, _, hlower, parts, hparts, h⟩ := h
  obtain ⟨s, rfl, rfl⟩ := lowered_ok_iff.1 hlower
  exact ⟨s, parts, hname, hparts, h⟩

theorem addKey_extends (h : l.addKey col = .ok l') : l.Extends l' := by
  obtain ⟨_, _, -, -, h⟩ := addKey_ok h
  exact add_extends h

/-- A foreign key adds no column if there is one of its name, and otherwise one with the type that it refers to. -/
theorem addForeign_ok (h : l.addForeign schema col = .ok l') : ∃ s, col.entry "FName" = .ok (.str s) ∧
    if l.hasColumn (lower s) then l' = l else ∃ position target p type, referredPosition col = .ok position ∧
      tableAt schema position = .ok target ∧ col.entry "PName" = .ok p ∧ referredType target p = .ok type ∧
      l.add (lower s) type (do return (← typeParts col).drop 1) = .ok l' := by
  simp only [addForeign, bind_ok_iff] at h
  obtain ⟨_, hname, _, hlower, h⟩ := h
  obtain ⟨s, rfl, rfl⟩ := lowered_ok_iff.1 hlower
  refine ⟨s, hname, ?_⟩
  split at h
  · next hl => rw [if_pos hl, pure_ok_iff.1 h]
  · next hl =>
    simp only [bind_ok_iff] at h
    obtain ⟨position, hposition, p, hp, target, htarget, type, htype, h⟩ := h
    rw [if_neg hl]
    exact ⟨position, target, p, type, hposition, htarget, hp, htype, h⟩

theorem addForeign_extends (h : l.addForeign schema col = .ok l') : l.Extends l' := by
  obtain ⟨s, -, h⟩ := addForeign_ok h
  split at h
  · exact h ▸ .refl l
  · obtain ⟨_, _, _, _, -, -, -, -, h⟩ := h
    exact add_extends h

theorem addOther_extends (h : l.addOther col = .ok l') : l.Extends l' := by
  simp only [addOther, addTyped, bind_ok_iff] at h
  obtain ⟨_, -, _, -, h⟩ := h
  split at h
  · exact pure_ok_iff.1 h ▸ .refl l
  · obtain ⟨_, -, h⟩ := bind_ok_iff.1 h
    exact add_extends h

theorem foldlM_extends {f : Loading → Value → Outcome Loading} (hf : ∀ {l c l'}, f l c = .ok l' → l.Extends l')
    {cols : List Value} (h : cols.foldlM f l = .ok l') : l.Extends l' :=
  foldlM_holds (fun _ _ _ _ h hl ↦ hl.trans (hf h)) h (.refl l)

/-- A column that is looked for stands behind columns of other names. -/
theorem hasColumn_add {name other : String} {type : Option String} {listed : Outcome (List String)}
    (hne : other ≠ name) (hl : l.hasColumn name = false) (h : l.add other type listed = .ok l') :
    l'.hasColumn name = false := by
  obtain ⟨enums, -, rfl⟩ := add_ok_iff.1 h
  simp only [hasColumn, any_append, Bool.or_eq_false_iff] at hl ⊢
  exact ⟨hl, by simpa [column, same] using hne⟩

end Workspace.Loading

/-- A list is gone through from an entry on. -/
theorem Outcome.foldlM_append_cons {α β : Type} {f : β → α → Outcome β} {before after : List α} {a : α} {b d : β}
    (h : (before ++ a :: after).foldlM f b = .ok d) :
    ∃ c c', before.foldlM f b = .ok c ∧ f c a = .ok c' ∧ after.foldlM f c' = .ok d := by
  simp only [foldlM_append, foldlM_cons, bind_ok_iff] at h
  obtain ⟨c, hc, c', hc', h⟩ := h
  exact ⟨c, c', hc, hc', h⟩

/-- The first key column with a name, letter by letter. -/
def keyNamed (keys : List Value) (p : String) : Option Value :=
  keys.find? fun k ↦ (k.entry "Name").toOption.any (·.same (.str p))

section Load

variable {schema t : Value} {keys enums : List Value} {l : Loading}

theorem loadColumns_steps (hkeys : t.entry "PKeys" = .ok (.list keys)) (h : loadColumns schema t enums = .ok l) :
    ∃ name l₁ fs foreign l₂, t.entry "FKeys" = .ok fs ∧ fs.members = .ok foreign ∧
      keys.foldlM addKey { name, enums } = .ok l₁ ∧
      foreign.foldlM (addForeign · schema ·) l₁ = .ok l₂ ∧ l₂.Extends l := by
  simp only [loadColumns, bind_ok_iff, hkeys] at h
  obtain ⟨_, -, name, -, _, ⟨⟩, _, ⟨⟩, l₁, h₁, fs, hfs, foreign, hforeign, l₂, h₂, _, -, _, -, h₃⟩ := h
  exact ⟨name, l₁, fs, foreign, l₂, hfs, hforeign, h₁, h₂, foldlM_extends addOther_extends h₃⟩

theorem referredType_ok (hkeys : t.entry "PKeys" = .ok (.list keys)) {p : String} {type : Option String}
    (h : referredType t (.str p) = .ok type) :
    match keyNamed keys p with
    | none => type = none
    | some k => ∃ parts, typeParts k = .ok parts ∧ type = parts.head? := by
  simp only [referredType, hkeys, bind_ok_iff] at h
  obtain ⟨_, ⟨⟩, _, ⟨⟩, h⟩ := h
  clear hkeys
  induction keys with
  | nil => exact (ok.inj h).symm
  | cons k keys ih =>
    rw [referredType.find] at h
    obtain ⟨v, hv, h⟩ := bind_ok_iff.1 h
    have hfind : keyNamed (k :: keys) p = bif v.same (.str p) then some k else keyNamed keys p := by
      rw [keyNamed, List.find?_cons, hv, Except.toOption, Option.any_some]
      cases v.same (.str p) <;> rfl
    rw [hfind]
    cases hs : v.same (.str p) with
    | true =>
      rw [hs, if_pos rfl] at h
      obtain ⟨parts, hparts, h⟩ := bind_ok_iff.1 h
      exact ⟨parts, hparts, pure_ok_iff.1 h⟩
    | false =>
      rw [hs] at h
      exact ih h

theorem exists_keyColumn (hkeys : t.entry "PKeys" = .ok (.list keys)) (h : loadColumns schema t enums = .ok l)
    {k : Value} (hk : k ∈ keys) {p : String} (hp : k.entry "Name" = .ok (.str p)) {parts : List String}
    (hparts : typeParts k = .ok parts) :
    ∃ c ∈ l.columns, c.name = .str (lower p) ∧ c.type = columnType parts.head? := by
  obtain ⟨name, l₁, _, _, l₂, -, -, h₁, h₂, hl⟩ := loadColumns_steps hkeys h
  obtain ⟨before, after, rfl⟩ := append_of_mem hk
  obtain ⟨l₃, l₄, -, hadd, hafter⟩ := foldlM_append_cons h₁
  obtain ⟨s, parts', hs, hparts', hadd⟩ := addKey_ok hadd
  obtain rfl : p = s := str.inj (ok.inj (hp.symm.trans hs))
  obtain rfl : parts = parts' := ok.inj (hparts.symm.trans hparts')
  have hextends := (foldlM_extends addKey_extends hafter).trans
    ((foldlM_extends addForeign_extends h₂).trans hl)
  obtain ⟨enums, -, rfl⟩ := add_ok_iff.1 hadd
  exact ⟨l₃.column (lower p) parts.head?, hextends.columns.subset (by simp), rfl, rfl⟩

/-- A column that is declared by a foreign key has the type of the key column with the name that the foreign key gives,
if there is one, and none otherwise. What an enumeration lists is taken from the foreign key. -/
theorem foreign_type {target col : Value} {before after enums' keys' : List Value} {l' : Loading} {n p : String}
    {position : Int} (h : loadColumns schema t enums = .ok l) (hkeys : t.entry "PKeys" = .ok (.list keys))
    (hforeign : t.entry "FKeys" = .ok (.list (before ++ col :: after))) (hn : col.entry "FName" = .ok (.str n))
    (hkey : ∀ k ∈ keys, ∀ s, k.entry "Name" = .ok (.str s) → Text.lower s ≠ Text.lower n)
    (hbefore : ∀ k ∈ before, ∀ s, k.entry "FName" = .ok (.str s) → Text.lower s ≠ Text.lower n)
    (hposition : referredPosition col = .ok position) (htarget : tableAt schema position = .ok target)
    (hp : col.entry "PName" = .ok (.str p)) (h' : loadColumns schema target enums' = .ok l')
    (hkeys' : target.entry "PKeys" = .ok (.list keys')) :
    ∃ c, l.columns.find? (·.name.same (.str (Text.lower n))) = some c ∧
      match keyNamed keys' p with
      | none => c.type = .null
      | some k => (∃ c' ∈ l'.columns, c'.name = .str (Text.lower p) ∧ c'.type = c.type) ∧
        ∃ parts, typeParts k = .ok parts ∧ (parts.head? = some "enum" → ∃ own, typeParts col = .ok own ∧
          .object [("enum", .list [.str s!"{l.name}.{Text.lower n}", .list ((own.drop 1).map .str)])] ∈ l.enums) := by
  obtain ⟨name, l₁, _, _, l₂, hf, hmembers, h₁, h₂, hl⟩ := loadColumns_steps hkeys h
  obtain rfl := ok.inj (hforeign.symm.trans hf)
  obtain rfl := ok.inj hmembers
  obtain ⟨l₃, l₄, hbefore', hadd, hafter⟩ := foldlM_append_cons h₂
  have hextends := (foldlM_extends addForeign_extends hafter).trans hl
  -- Nothing before the foreign key has its name.
  have fresh₁ : l₁.hasColumn (lower n) = false := by
    refine foldlM_holds (Q := (·.hasColumn (lower n) = false)) (fun k hk l l' hadd hfresh ↦ ?_) h₁ rfl
    obtain ⟨s, _, hs, -, hadd⟩ := addKey_ok hadd
    exact hasColumn_add (hkey k hk s hs) hfresh hadd
  have fresh₃ : l₃.hasColumn (lower n) = false := by
    refine foldlM_holds (Q := (·.hasColumn (lower n) = false)) (fun k hk l l' hadd hfresh ↦ ?_) hbefore'
      fresh₁
    obtain ⟨s, hs, hadd⟩ := addForeign_ok hadd
    split at hadd
    · exact hadd ▸ hfresh
    · obtain ⟨_, _, _, _, -, -, -, -, hadd⟩ := hadd
      exact hasColumn_add (hbefore k hk s hs) hfresh hadd
  obtain ⟨s, hs, hadd⟩ := addForeign_ok hadd
  obtain rfl : n = s := str.inj (ok.inj (hn.symm.trans hs))
  rw [fresh₃, if_neg Bool.false_ne_true] at hadd
  obtain ⟨position', target', p', type, hposition', htarget', hp', htype, hadd⟩ := hadd
  obtain rfl : position = position' := ok.inj (hposition.symm.trans hposition')
  obtain rfl : target = target' := ok.inj (htarget.symm.trans htarget')
  obtain rfl : .str p = p' := ok.inj (hp.symm.trans hp')
  have htype := referredType_ok hkeys' htype
  obtain ⟨enums₄, henums, rfl⟩ := add_ok_iff.1 hadd
  refine ⟨l₃.column (lower n) type, ?_, ?_⟩
  · obtain ⟨cs, hcs⟩ := hextends.columns
    have hnone : l₃.columns.find? (·.name.same (.str (lower n))) = none := by
      simpa [hasColumn] using fresh₃
    rw [← hcs, List.find?_append, List.find?_append, hnone]
    simp [Loading.column, same]
  · cases hkeyed : keyNamed keys' p with
    | none =>
      rw [hkeyed] at htype
      rw [htype]
      rfl
    | some k =>
      rw [hkeyed] at htype
      obtain ⟨parts, hparts, rfl⟩ := htype
      refine ⟨exists_keyColumn hkeys' h' (mem_of_find?_eq_some hkeyed) ?_ hparts, parts, hparts, fun henum ↦ ?_⟩
      · have hname := List.find?_some hkeyed
        obtain ⟨v, hv, hsame⟩ := Option.any_eq_true _ _ |>.1 hname
        rw [same_str_iff.1 hsame] at hv
        exact ok_of_toOption hv
      · rw [henum] at henums
        obtain ⟨vs, hvs, rfl⟩ := henums
        obtain ⟨own, hown, hvs⟩ := bind_ok_iff.1 hvs
        obtain rfl := pure_ok_iff.1 hvs
        rw [hextends.name]
        exact ⟨own, hown, hextends.enums.subset (by simp)⟩

end Load

def items : Value :=
  .object [("TableName", .str "items"), ("PKeys", .list [.object [("Name", .str "id"), ("Type", .str "int")]]),
    ("FKeys", .list []), ("Others", .list [.object [("Name", .str "label"), ("Type", .str "varchar")]])]

def orderedItem : Value := .object [("FName", .str "item"), ("PTable", .int 0), ("PName", .str "id")]

def orderedLabel : Value := .object [("FName", .str "tag"), ("PTable", .int 0), ("PName", .str "label")]

def orders : Value :=
  .object [("TableName", .str "orders"), ("PKeys", .list []), ("FKeys", .list [orderedItem, orderedLabel]),
    ("Others", .list [])]

/-- A foreign key that refers to a column of type `varchar` beside the key has no type. -/
theorem foreign_type_orders : ∃ l c, loadColumns (.list [items, orders]) orders [] = .ok l ∧
    l.columns.find? (·.name.same (.str (Text.lower "tag"))) = some c ∧ c.type = .null := by
  obtain ⟨l, hl⟩ : ∃ l, (loadColumns (.list [items, orders]) orders []).toOption = some l :=
    Option.isSome_iff_exists.1 (by decide +kernel)
  obtain ⟨l', hl'⟩ : ∃ l', (loadColumns (.list [items, orders]) items []).toOption = some l' :=
    Option.isSome_iff_exists.1 (by decide +kernel)
  have hl := ok_of_toOption hl
  have hforeign : orders.entry "FKeys" = .ok (.list ([orderedItem] ++ [orderedLabel])) := rfl
  have hposition : referredPosition orderedLabel = .ok 0 := rfl
  have hitem : lower "item" = "item" := by decide +kernel
  have htag : lower "tag" = "tag" := by decide +kernel
  have hbefore : ∀ k ∈ [orderedItem], ∀ s, k.entry "FName" = .ok (.str s) → lower s ≠ lower "tag" := by
    intro k hk s hs
    obtain rfl := mem_singleton.1 hk
    obtain rfl : "item" = s := str.inj (ok.inj hs)
    rw [hitem, htag]
    decide
  obtain ⟨c, hc, htype⟩ := foreign_type hl rfl hforeign rfl (by simp) hbefore hposition rfl rfl
    (ok_of_toOption hl') rfl
  exact ⟨l, c, hl, hc, htype⟩

end QueryEquiv
