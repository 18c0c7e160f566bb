import Mathlib.Data.List.SplitBy
import ShaderFlow.Code.Expr

/-!
# Tokens and their definitions

The tokens of a text are its maximal runs of identifier characters, and its other characters one
by one. What counts as a letter outside the first 128 characters is left open: an `Alphabet`
settles it.

* `Alphabet.tokens_append` says that a text falls into the tokens of its parts if no run goes
  across the seam, and `Alphabet.tokens_name` that the name of a temporary is one token;
* `Alphabet.expand` replaces tokens by the texts they are defined as, again and again. A
  definition may use the definitions before it.
-/

namespace ShaderFlow

/-- A character that is part of no identifier, whatever counts as a letter. -/
def isMark (c : Char) : Bool := decide (c.toNat < 128) && !(c.isAlphanum || c == '_')

/-- What counts as a letter. -/
structure Alphabet where
  /-- Whether a character is a letter. -/
  letter : Char → Bool
  /-- Among the first 128 characters, the letters are the usual ones. -/
  letter_eq : ∀ c, c.toNat < 128 → letter c = c.isAlpha

namespace Alphabet

/-- The alphabet with the usual letters only. -/
def ascii : Alphabet := ⟨Char.isAlpha, fun _ _ => rfl⟩

variable (A : Alphabet)

/-- Whether a character can be part of an identifier. -/
def isIdent (c : Char) : Bool := A.letter c || c.isDigit || c == '_'

/-- The tokens of a text: the maximal runs of identifier characters, and each other character on
its own. -/
def tokens (text : List Char) : List (List Char) :=
  text.splitBy fun a b => A.isIdent a && A.isIdent b

/-- The text that a token stands for, given definitions, the newest first. -/
def resolve : List (List Char × List Char) → List Char → List Char
  | [], token => token
  | (name, value) :: older, token =>
    if token = name then (A.tokens value).flatMap (resolve older) else resolve older token

/-- The text with all its tokens replaced by what they stand for. -/
def expand (definitions : List (List Char × List Char)) (text : List Char) : List Char :=
  (A.tokens text).flatMap (A.resolve definitions)

variable {A}

theorem isIdent_of_isMark {c : Char} (h : isMark c = true) : A.isIdent c = false := by
  simp only [isMark, Bool.and_eq_true, decide_eq_true_eq, Bool.not_eq_true', Bool.or_eq_false_iff,
    Char.isAlphanum] at h
  simp [isIdent, A.letter_eq c h.1, h.2]

theorem isIdent_of_isDigit {c : Char} (h : c.isDigit = true) : A.isIdent c = true := by
  simp [isIdent, h]

/-! ### Tokens -/

@[simp]
theorem tokens_nil : A.tokens [] = [] := rfl

@[simp]
theorem flatten_tokens (text : List Char) : (A.tokens text).flatten = text :=
  List.flatten_splitBy _ text

/-- No run goes across a seam with a mark on one of its sides. -/
theorem tokens_append {s t : List Char}
    (h : (∀ c ∈ s.getLast?, isMark c = true) ∨ ∀ c ∈ t.head?, isMark c = true) :
    A.tokens (s ++ t) = A.tokens s ++ A.tokens t := by
  refine List.splitBy_append fun x hx y hy => ?_
  rcases h with h | h
  · simp [isIdent_of_isMark (h x hx)]
  · simp [isIdent_of_isMark (h y hy)]

theorem tokens_of_isIdent {text : List Char} (hne : text ≠ [])
    (h : ∀ c ∈ text, A.isIdent c = true) : A.tokens text = [text] := by
  refine List.splitBy_of_isChain hne (List.Pairwise.isChain ?_)
  refine List.Pairwise.imp_of_mem ?_ (List.pairwise_of_forall fun _ _ => trivial)
  intro a b ha hb _
  simp [h a ha, h b hb]

/-- The name of a temporary is one token. -/
theorem tokens_name {stem : String} (hstem : ∀ c ∈ stem.toList, A.isIdent c = true) (i : Nat) :
    A.tokens (Atom.name stem i).toList = [(Atom.name stem i).toList] := by
  refine tokens_of_isIdent ?_ fun c hc => ?_
  · simp [Atom.name]
  · simp only [Atom.name, String.toList_append, List.mem_append, Nat.toList_repr] at hc
    rcases hc with hc | hc
    · exact hstem c hc
    · exact isIdent_of_isDigit (Nat.isDigit_of_mem_toDigits (by decide) (by decide) hc)

/-! ### Definitions -/

theorem resolve_of_forall_ne {definitions : List (List Char × List Char)} {token : List Char}
    (h : ∀ d ∈ definitions, token ≠ d.1) : A.resolve definitions token = token := by
  induction definitions with
  | nil => rfl
  | cons d older ih =>
    rw [resolve, if_neg (h d List.mem_cons_self)]
    exact ih fun d hd => h d (List.mem_cons_of_mem _ hd)

theorem expand_of_forall_ne {definitions : List (List Char × List Char)} {text : List Char}
    (h : ∀ token ∈ A.tokens text, ∀ d ∈ definitions, token ≠ d.1) :
    A.expand definitions text = text := by
  have hmap : (A.tokens text).map (A.resolve definitions) = (A.tokens text).map id :=
    List.map_congr_left fun token htoken => resolve_of_forall_ne (h token htoken)
  rw [expand, List.flatMap, hmap, List.map_id, flatten_tokens]

end Alphabet

theorem toDigits_inj {i j : Nat} : Nat.toDigits 10 i = Nat.toDigits 10 j ↔ i = j := by
  refine ⟨fun h => ?_, fun h => h ▸ rfl⟩
  simpa using congrArg (fun cs => Nat.ofDigitChars 10 cs 0) h

theorem Atom.name_inj {stem : String} {i j : Nat} :
    Atom.name stem i = Atom.name stem j ↔ i = j := by
  refine ⟨fun h => ?_, fun h => h ▸ rfl⟩
  exact toDigits_inj.1 (by simpa [Atom.name] using congrArg String.toList h)

end ShaderFlow
