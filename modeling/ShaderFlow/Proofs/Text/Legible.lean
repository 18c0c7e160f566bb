import ShaderFlow.Code.Block
import ShaderFlow.Proofs.Function.Template

/-!
# Reading temporaries back

An expression is legible if its text falls into the tokens of its pieces, and no token of a text
of it is the name of a temporary. Then replacing tokens by definitions is the same as putting the
texts that the names stand for in the place of the temporaries (`Expr.Legible.expand_render`).

The lines of a block define its temporaries in order, each by those before it, so a definition
stays what it is when more of them follow (`Line.Numbered.reading_eq`).
-/

namespace ShaderFlow

variable {A : Alphabet} {stem : String}

/-- No token of the text is the name of a temporary. -/
def Alphabet.Clean (A : Alphabet) (stem text : String) : Prop :=
  ∀ token ∈ A.tokens text.toList, ∀ i, token ≠ (Atom.name stem i).toList

namespace Expr

variable {a b e t : Expr} {D : Nat → Expr} {next : Nat}

/-- The text of the expression falls into the tokens of its pieces. -/
def Delimited (A : Alphabet) (stem : String) (e : Expr) : Prop :=
  A.tokens (e.render stem).toList = e.atoms.flatMap fun a => A.tokens (a.render stem).toList

/-- The names of temporaries can be found in the text of the expression, and all of them are those
of the temporaries that come before `next`. -/
structure Legible (A : Alphabet) (stem : String) (next : Nat) (e : Expr) : Prop where
  /-- The text falls into the tokens of the pieces. -/
  delimited : e.Delimited A stem
  /-- No text of the expression has the name of a temporary. -/
  clean : ∀ s ∈ e.texts, A.Clean stem s
  /-- All temporaries come before `next`. -/
  bounded : ∀ i ∈ e.temporaries, i < next

theorem Delimited.append (ha : a.Delimited A stem) (hb : b.Delimited A stem)
    (h : A.tokens ((a.render stem).toList ++ (b.render stem).toList) =
      A.tokens (a.render stem).toList ++ A.tokens (b.render stem).toList) :
    (a ++ b).Delimited A stem := by
  unfold Delimited at ha hb ⊢
  rw [render_append, String.toList_append, h, ha, hb, atoms_append, List.flatMap_append]

theorem delimited_atom (a : Atom) : Expr.Delimited A stem ⟨[a]⟩ := by
  simp [Delimited, render]

theorem head?_render_of_opens {s : String} {rest : List Atom} (hs : (Atom.text s).opens = true) :
    ∀ c ∈ (Expr.render stem (⟨Atom.text s :: rest⟩ : Expr)).toList.head?, isMark c = true := by
  intro c hc
  simp only [render, List.map_cons, String.join_cons, Atom.render, String.toList_append,
    List.head?_append] at hc
  simp only [Atom.opens] at hs
  cases hhead : s.toList.head? with
  | none => simp [hhead] at hs
  | some c' =>
    simp only [hhead, Option.any_some, Option.some_or, Option.mem_def, Option.some.injEq] at hs hc
    rwa [← hc]

/-- Marks between the pieces of a template keep what is filled in apart. -/
theorem Guarded.delimited_subst (h : t.Guarded)
    (hD : ∀ i ∈ t.temporaries, (D i).Delimited A stem) : (t.subst D).Delimited A stem := by
  obtain ⟨atoms⟩ := t
  induction atoms with
  | nil => simp [Delimited, subst, render]
  | cons a rest ih =>
    have hrest : (Expr.subst D ⟨rest⟩).Delimited A stem :=
      ih (List.IsChain.tail h) fun i hi => hD i (by
        obtain ⟨x, hx, hxi⟩ := List.mem_filterMap.1 hi
        exact List.mem_filterMap.2 ⟨x, List.mem_cons_of_mem _ hx, hxi⟩)
    have hsplit : Expr.subst D ⟨a :: rest⟩ = Expr.subst D ⟨[a]⟩ ++ Expr.subst D ⟨rest⟩ :=
      Expr.subst_append D ⟨[a]⟩ ⟨rest⟩
    have ha : (Expr.subst D ⟨[a]⟩).Delimited A stem := by
      cases a with
      | text s => exact delimited_atom _
      | temporary i =>
        rw [show (⟨[.temporary i]⟩ : Expr) = temporary i from rfl, subst_temporary]
        exact hD i (List.mem_filterMap.2 ⟨_, List.mem_cons_self, rfl⟩)
    rw [hsplit]
    refine ha.append hrest ?_
    cases rest with
    | nil => simp [subst, render]
    | cons b rest =>
      rcases Bool.or_eq_true_iff.1 (List.isChain_cons_cons.1 h).1 with hcloses | hopens
      · cases a with
        | temporary i => cases hcloses
        | text s =>
          refine Alphabet.tokens_append (Or.inl fun c hc => ?_)
          obtain ⟨c', hc', hmark⟩ := (Option.any_eq_true _ _).1 hcloses
          rw [show Expr.subst D ⟨[.text s]⟩ = text s from rfl, render_text, hc'] at hc
          cases hc
          exact hmark
      · cases b with
        | temporary i => cases hopens
        | text s => exact Alphabet.tokens_append (Or.inr (head?_render_of_opens hopens))

theorem Legible.mono {next' : Nat} (h : e.Legible A stem next) (hle : next ≤ next') :
    e.Legible A stem next' :=
  ⟨h.delimited, h.clean, fun i hi => Nat.lt_of_lt_of_le (h.bounded i hi) hle⟩

theorem legible_temporary {i : Nat} (h : i < next) : (temporary i).Legible A stem next :=
  ⟨delimited_atom _, by simp, by simpa using h⟩

/-- A template with clean texts is legible when legible expressions are filled in. -/
theorem Guarded.legible_subst (h : t.Guarded) (hclean : ∀ s ∈ t.texts, A.Clean stem s)
    (hD : ∀ i ∈ t.temporaries, (D i).Legible A stem next) : (t.subst D).Legible A stem next where
  delimited := h.delimited_subst fun i hi => (hD i hi).delimited
  clean s hs := by
    rcases (texts_subst D t).1 hs with hs | ⟨i, hi, hs⟩
    · exact hclean s hs
    · exact (hD i hi).clean s hs
  bounded j hj := by
    rw [temporaries_subst] at hj
    obtain ⟨i, hi, hj⟩ := List.mem_flatMap.1 hj
    exact (hD i hi).bounded j hj

/-- Replacing the tokens of a legible expression puts texts in the place of its temporaries. -/
theorem Legible.expand_render (h : e.Legible A stem next)
    (hstem : ∀ c ∈ stem.toList, A.isIdent c = true) {definitions : List (List Char × List Char)}
    (hnames : ∀ d ∈ definitions, ∃ i, d.1 = (Atom.name stem i).toList) :
    A.expand definitions (e.render stem).toList =
      (e.renderWith fun i =>
        String.ofList (A.resolve definitions (Atom.name stem i).toList)).toList := by
  -- piece by piece: a text has no token to replace, and a temporary is one token
  have hatom : ∀ a ∈ e.atoms, (A.tokens (a.render stem).toList).flatMap (A.resolve definitions) =
      (a.renderWith fun i =>
        String.ofList (A.resolve definitions (Atom.name stem i).toList)).toList := by
    intro a ha
    cases a with
    | text s =>
      refine Alphabet.expand_of_forall_ne fun token htoken d hd => ?_
      obtain ⟨i, hi⟩ := hnames d hd
      rw [hi]
      exact h.clean s (List.mem_filterMap.2 ⟨_, ha, rfl⟩) token htoken i
    | temporary i => simp [Atom.render, Alphabet.tokens_name hstem, Atom.renderWith]
  rw [Alphabet.expand, h.delimited, renderWith, String.toList_join, List.flatMap_assoc,
    List.flatMap_map]
  exact List.flatMap_congr hatom

end Expr

/-! ### Definitions of temporaries -/

namespace Line

/-- The name that a line defines and the text that it is defined as. -/
def definition? (stem : String) : Line → Option (List Char × List Char)
  | declare _ i e => some ((Atom.name stem i).toList, (e.render stem).toList)
  | _ => none

/-- The lines, of which the newest comes first, declare temporaries with the numbers in order, by
legible expressions of those before. -/
def Numbered (A : Alphabet) (stem : String) : List Line → Prop
  | [] => True
  | l :: older =>
    (∃ ty e, l = .declare ty older.length e ∧ e.Legible A stem older.length) ∧
      Numbered A stem older

theorem Numbered.of_mem {lines : List Line} (h : Numbered A stem lines) {ty : Ty} {i : Nat}
    {e : Expr} (hmem : .declare ty i e ∈ lines) : i < lines.length ∧ e.Legible A stem i := by
  induction lines with
  | nil => cases hmem
  | cons l older ih =>
    obtain ⟨⟨ty', e', rfl, he'⟩, holder⟩ := h
    rcases List.mem_cons.1 hmem with heq | hmem
    · cases heq
      exact ⟨Nat.lt_succ_self _, he'⟩
    · obtain ⟨hi, he⟩ := ih holder hmem
      exact ⟨Nat.lt_succ_of_lt hi, he⟩

theorem Numbered.exists_eq_declare {lines : List Line} (h : Numbered A stem lines) {l : Line}
    (hl : l ∈ lines) : ∃ ty i e, l = .declare ty i e := by
  induction lines with
  | nil => cases hl
  | cons l' older ih =>
    obtain ⟨⟨ty, e, rfl, -⟩, holder⟩ := h
    rcases List.mem_cons.1 hl with rfl | hl
    · exact ⟨ty, _, e, rfl⟩
    · exact ih holder hl

/-- What the names of temporaries stand for, after definitions in lines. -/
def reading (A : Alphabet) (stem : String) (lines : List Line) (i : Nat) : String :=
  String.ofList (A.resolve (lines.filterMap (definition? stem)) (Atom.name stem i).toList)

theorem reading_cons_of_ne {lines : List Line} {ty : Ty} {i j : Nat} {e : Expr} (h : j ≠ i) :
    reading A stem (.declare ty i e :: lines) j = reading A stem lines j := by
  have hne : (Atom.name stem j).toList ≠ (Atom.name stem i).toList := fun heq =>
    h (Atom.name_inj.1 (String.toList_injective heq))
  simp [reading, definition?, Alphabet.resolve, hne]

theorem names_of_definitions (stem : String) (lines : List Line) :
    ∀ d ∈ lines.filterMap (definition? stem), ∃ i, d.1 = (Atom.name stem i).toList := by
  intro d hd
  obtain ⟨l, -, hl⟩ := List.mem_filterMap.1 hd
  cases l with
  | declare ty i e =>
    cases hl
    exact ⟨i, rfl⟩
  | statement _ | assign _ _ => cases hl

/-- A temporary stands for the text that its definition stands for. -/
theorem Numbered.reading_eq {lines : List Line} (h : Numbered A stem lines)
    (hstem : ∀ c ∈ stem.toList, A.isIdent c = true) {ty : Ty} {i : Nat} {e : Expr}
    (hmem : .declare ty i e ∈ lines) :
    reading A stem lines i = e.renderWith (reading A stem lines) := by
  induction lines with
  | nil => cases hmem
  | cons l older ih =>
    obtain ⟨⟨ty', e', rfl, he'⟩, holder⟩ := h
    -- the new line defines a number that no older expression refers to
    have hkeep : ∀ {e : Expr}, (∀ j ∈ e.temporaries, j < older.length) →
        e.renderWith (reading A stem (.declare ty' older.length e' :: older)) =
          e.renderWith (reading A stem older) := fun hlt =>
      Expr.renderWith_congr fun j hj => reading_cons_of_ne (Nat.ne_of_lt (hlt j hj))
    rcases List.mem_cons.1 hmem with heq | hmem
    · cases heq
      rw [hkeep he'.bounded, ← String.toList_inj]
      refine Eq.trans ?_ (he'.expand_render hstem (names_of_definitions stem older))
      simp [reading, definition?, Alphabet.resolve, Alphabet.expand]
    · obtain ⟨hi, he⟩ := holder.of_mem hmem
      rw [reading_cons_of_ne (Nat.ne_of_lt hi), ih holder hmem]
      exact (hkeep fun j hj => Nat.lt_trans (he.bounded j hj) hi).symm

end Line

end ShaderFlow
