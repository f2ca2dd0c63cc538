import Mathlib
import QueryEquiv.Term.Script

/-!
# Symbolic expressions

The grammar that solvers read: an expression is a word, or a list of expressions in brackets. A text is cut
into tokens, and the tokens are put together with a stack of the lists that are not closed yet. What is
written from an expression is read as that expression, whatever its depth.

Texts with string literals, quoted words or comments are not read.
-/

namespace QueryEquiv

inductive Sexp where
  | word (s : String)
  | list (items : List Sexp)

namespace Sexp

inductive Token where
  | opening
  | closing
  | word (s : String)

/-! ## Reading -/

def isBlank (c : Char) : Bool := c == ' ' || c == '\t' || c == '\n' || c == '\r'

/-- The characters that words are made of here. -/
def isPlain (c : Char) : Bool := !(isBlank c || ['(', ')', '"', '|', ';'].contains c)

/-- Ends a word before further tokens, if one was begun. -/
def ended (begun : List Char) (ts : List Token) : List Token :=
  if begun.isEmpty then ts else .word (String.ofList begun) :: ts

/-- The tokens of a text, the first word of which may have been begun already. -/
def lex (begun : List Char) : List Char → Option (List Token)
  | [] => some (ended begun [])
  | c :: cs =>
    if isPlain c then lex (begun ++ [c]) cs
    else if isBlank c then (lex [] cs).map (ended begun)
    else if c == '(' then (lex [] cs).map fun ts ↦ ended begun (.opening :: ts)
    else if c == ')' then (lex [] cs).map fun ts ↦ ended begun (.closing :: ts)
    else none

/-- Takes a token in. The stack has the items of each list that is open, the innermost list and the last
item first; the outermost list is the text itself. -/
def shift : List (List Sexp) → Token → Option (List (List Sexp))
  | stack, .opening => some ([] :: stack)
  | es :: fs :: stack, .closing => some ((list es.reverse :: fs) :: stack)
  | es :: stack, .word s => some ((word s :: es) :: stack)
  | _, _ => none

/-- The expression that a text is. -/
def read (s : String) : Option Sexp := do
  match ← (← lex [] s.toList).foldlM shift [[]] with
  | [[e]] => some e
  | _ => none

/-! ## Writing -/

mutual

def render : Sexp → String
  | word s => s
  | list [] => "()"
  | list (e :: es) => "(" ++ render e ++ renderAll es ++ ")"

/-- The texts of expressions, each after a blank. -/
def renderAll : List Sexp → String
  | [] => ""
  | e :: es => " " ++ render e ++ renderAll es

end

mutual

def tokens : Sexp → List Token
  | word s => [.word s]
  | list es => .opening :: (tokensAll es ++ [.closing])

def tokensAll : List Sexp → List Token
  | [] => []
  | e :: es => tokens e ++ tokensAll es

end

/-- A text that is read as one word. -/
def isWord (s : String) : Bool := !s.toList.isEmpty && s.toList.all isPlain

/-- All words can be read. -/
inductive Legible : Sexp → Prop
  | word {s : String} (h : isWord s = true) : Legible (word s)
  | list {es : List Sexp} (h : ∀ e ∈ es, Legible e) : Legible (list es)

/-! ## Tokens of a written expression -/

/-- A text in which a word cannot go on. -/
def Ends (rest : List Char) : Prop := ∀ c ∈ rest.head?, isPlain c = false

theorem ended_of_ne_nil {begun : List Char} (h : begun ≠ []) :
    ended begun = (.word (String.ofList begun) :: ·) := by
  funext ts
  simp [ended, h]

theorem lex_append_word {cs : List Char} (h : ∀ c ∈ cs, isPlain c = true) (begun rest : List Char) :
    lex begun (cs ++ rest) = lex (begun ++ cs) rest := by
  induction cs generalizing begun with
  | nil => simp
  | cons c cs ih =>
    rw [List.cons_append, lex, if_pos (h c (by simp)), ih fun d hd ↦ h d (by simp [hd])]
    simp

/-- A word that cannot go on is a token. -/
theorem lex_of_ends {begun rest : List Char} (hne : begun ≠ []) (h : Ends rest) :
    lex begun rest = (lex [] rest).map (.word (String.ofList begun) :: ·) := by
  cases rest with
  | nil => simp [lex, ended, hne]
  | cons c cs =>
    have hc : isPlain c = false := h c rfl
    simp only [lex, hc, Bool.false_eq_true, if_false, ended_of_ne_nil hne]
    split_ifs <;> simp [ended, Function.comp_def]

theorem lex_opening (rest : List Char) : lex [] ('(' :: rest) = (lex [] rest).map (.opening :: ·) := rfl

theorem lex_closing (rest : List Char) : lex [] (')' :: rest) = (lex [] rest).map (.closing :: ·) := rfl

theorem lex_blank (rest : List Char) : lex [] (' ' :: rest) = lex [] rest := by
  change (lex [] rest).map (ended []) = _
  cases lex [] rest <;> rfl

/-- After expressions that each follow a blank, no word goes on. -/
theorem ends_renderAll (es : List Sexp) {rest : List Char} (h : Ends rest) :
    Ends ((renderAll es).toList ++ rest) := by
  cases es with
  | nil => simpa [renderAll] using h
  | cons e es => simp [renderAll, Ends, String.toList_append]; decide

/-- Several expressions have the tokens of each, if each has its own tokens. -/
theorem lex_renderAll {es : List Sexp}
    (ih : ∀ e ∈ es, ∀ rest, Ends rest →
      lex [] (e.render.toList ++ rest) = (lex [] rest).map (e.tokens ++ ·))
    {rest : List Char} (h : Ends rest) :
    lex [] ((renderAll es).toList ++ rest) = (lex [] rest).map (tokensAll es ++ ·) := by
  induction es with
  | nil => simp [renderAll, tokensAll]
  | cons e es ihs =>
    have hhead := ih e (by simp) ((renderAll es).toList ++ rest) (ends_renderAll es h)
    rw [ihs fun e' he' ↦ ih e' (by simp [he'])] at hhead
    simp only [renderAll, String.toList_append, List.append_assoc]
    change lex [] (' ' :: (e.render.toList ++ ((renderAll es).toList ++ rest))) = _
    rw [lex_blank, hhead]
    simp [tokensAll, Function.comp_def]

/-- The text of an expression is made of its tokens. -/
theorem lex_render {e : Sexp} (he : e.Legible) (rest : List Char) (h : Ends rest) :
    lex [] (e.render.toList ++ rest) = (lex [] rest).map (e.tokens ++ ·) := by
  induction he generalizing rest with
  | @word s hs =>
    rw [isWord, Bool.and_eq_true, List.all_eq_true] at hs
    have hne : s.toList ≠ [] := by simpa using hs.1
    simpa [render, tokens, lex_append_word hs.2] using lex_of_ends hne h
  | @list es hes ih =>
    have hclosing : Ends (')' :: rest) := by simp [Ends]; decide
    cases es with
    | nil =>
      change lex [] ('(' :: ')' :: rest) = _
      rw [lex_opening, lex_closing]
      simp [tokens, tokensAll, Function.comp_def]
    | cons e es =>
      have hhead := ih e (by simp) _ (ends_renderAll es hclosing)
      rw [lex_renderAll (fun e' he' ↦ ih e' (by simp [he'])) hclosing, lex_closing] at hhead
      simp only [render, String.toList_append, List.append_assoc]
      change lex [] ('(' :: (e.render.toList ++ ((renderAll es).toList ++ ')' :: rest))) = _
      rw [lex_opening, hhead]
      simp [tokens, tokensAll, Function.comp_def]

/-! ## Expressions from tokens -/

theorem shift_tokensAll {es : List Sexp}
    (ih : ∀ e ∈ es, ∀ fs stack, e.tokens.foldlM shift (fs :: stack) = some ((e :: fs) :: stack))
    (fs : List Sexp) (stack : List (List Sexp)) :
    (tokensAll es).foldlM shift (fs :: stack) = some ((es.reverse ++ fs) :: stack) := by
  induction es generalizing fs with
  | nil => rfl
  | cons e es ihs =>
    rw [tokensAll, List.foldlM_append, ih e (by simp)]
    simpa using ihs (fun e' he' ↦ ih e' (by simp [he'])) (e :: fs)

/-- The tokens of an expression are put together to it. -/
theorem shift_tokens (e : Sexp) (fs : List Sexp) (stack : List (List Sexp)) :
    e.tokens.foldlM shift (fs :: stack) = some ((e :: fs) :: stack) := by
  cases e with
  | word s => rfl
  | list es =>
    have hitems := shift_tokensAll (fun e (_ : e ∈ es) ↦ shift_tokens e) [] (fs :: stack)
    change (tokensAll es ++ [Token.closing]).foldlM shift ([] :: fs :: stack) = _
    rw [List.foldlM_append, hitems]
    simp [shift]

theorem read_render {e : Sexp} (he : e.Legible) : read e.render = some e := by
  have hlex : lex [] e.render.toList = some e.tokens := by
    simpa [lex, ended] using lex_render he [] (by simp [Ends])
  simp [read, hlex, shift_tokens]

end Sexp

end QueryEquiv
