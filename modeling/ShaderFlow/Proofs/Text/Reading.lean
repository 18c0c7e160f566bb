import ShaderFlow.Proofs.Code.Subst

/-!
# Reading texts character by character

A `Reader` goes over a text with a state, and may get stuck on a character. An expression is read
piece by piece, once it is said what its temporaries do to the state. If the texts that are put in
the place of the temporaries do just that, the whole text is read as the expression is
(`Reader.Reads.renderWith`): what holds of a template holds of all texts made from it.
-/

namespace ShaderFlow

/-- A device that reads characters one by one. -/
structure Reader (σ : Type) where
  /-- The state after a character, if the character can be read. -/
  step : σ → Char → Option σ

namespace Reader

variable {σ : Type} {R : Reader σ} {q q₁ q₂ : σ} {s t : List Char}

/-- The state after a text, if all of it can be read. -/
def read (R : Reader σ) (q : σ) (text : List Char) : Option σ := text.foldlM R.step q

/-- Reading a text leads from one state to another. -/
def Reads (R : Reader σ) (q : σ) (text : List Char) (q' : σ) : Prop := R.read q text = some q'

instance [DecidableEq σ] : Decidable (R.Reads q s q₁) :=
  inferInstanceAs (Decidable (R.read q s = some q₁))

theorem reads_nil : R.Reads q [] q := rfl

theorem reads_cons {c : Char} :
    R.Reads q (c :: s) q₁ ↔ ∃ q', R.step q c = some q' ∧ R.Reads q' s q₁ := by
  simp [Reads, read, Option.bind_eq_some_iff]

theorem reads_append : R.Reads q (s ++ t) q₂ ↔ ∃ q₁, R.Reads q s q₁ ∧ R.Reads q₁ t q₂ := by
  simp [Reads, read, List.foldlM_append, Option.bind_eq_some_iff]

theorem Reads.append (hs : R.Reads q s q₁) (ht : R.Reads q₁ t q₂) : R.Reads q (s ++ t) q₂ :=
  reads_append.2 ⟨q₁, hs, ht⟩

theorem reads_of_forall {P : σ → Prop} (hq : P q)
    (h : ∀ c ∈ s, ∀ q, P q → ∃ q', R.step q c = some q' ∧ P q') : ∃ q', P q' ∧ R.Reads q s q' := by
  induction s generalizing q with
  | nil => exact ⟨q, hq, reads_nil⟩
  | cons c s ih =>
    obtain ⟨hc, hs⟩ := List.forall_mem_cons.1 h
    obtain ⟨q₁, hstep, hq₁⟩ := hc q hq
    obtain ⟨q₂, hq₂, hreads⟩ := ih hq₁ hs
    exact ⟨q₂, hq₂, reads_cons.2 ⟨q₁, hstep, hreads⟩⟩

theorem reads_join {l : List String} (h : ∀ s ∈ l, R.Reads q s.toList q) :
    R.Reads q (String.join l).toList q := by
  induction l with
  | nil => exact reads_nil
  | cons s l ih =>
    obtain ⟨hs, hl⟩ := List.forall_mem_cons.1 h
    rw [String.join_cons, String.toList_append]
    exact hs.append (ih hl)

/-! ### Expressions -/

/-- The state after a piece of an expression, where `hole` says what temporaries do. -/
def readAtom (R : Reader σ) (hole : Nat → σ → Option σ) (q : σ) : Atom → Option σ
  | .text s => R.read q s.toList
  | .temporary i => hole i q

/-- Reading an expression leads from one state to another, where `hole` says what temporaries
do. -/
def ReadsExpr (R : Reader σ) (hole : Nat → σ → Option σ) (q : σ) (e : Expr) (q' : σ) : Prop :=
  e.atoms.foldlM (R.readAtom hole) q = some q'

variable {hole : Nat → σ → Option σ} {a b e : Expr}

instance [DecidableEq σ] : Decidable (R.ReadsExpr hole q e q₁) :=
  inferInstanceAs (Decidable (e.atoms.foldlM (R.readAtom hole) q = some q₁))

theorem readsExpr_text {text : String} :
    R.ReadsExpr hole q (.text text) q₁ ↔ R.Reads q text.toList q₁ := by
  simp [ReadsExpr, Expr.text, readAtom, Reads]

theorem readsExpr_temporary {i : Nat} :
    R.ReadsExpr hole q (.temporary i) q₁ ↔ hole i q = some q₁ := by
  simp [ReadsExpr, Expr.temporary, readAtom]

theorem readsExpr_append :
    R.ReadsExpr hole q (a ++ b) q₂ ↔
      ∃ q₁, R.ReadsExpr hole q a q₁ ∧ R.ReadsExpr hole q₁ b q₂ := by
  simp [ReadsExpr, List.foldlM_append, Option.bind_eq_some_iff]

theorem ReadsExpr.append (ha : R.ReadsExpr hole q a q₁) (hb : R.ReadsExpr hole q₁ b q₂) :
    R.ReadsExpr hole q (a ++ b) q₂ :=
  readsExpr_append.2 ⟨q₁, ha, hb⟩

theorem Reads.renderWith {D : Nat → String} (h : R.ReadsExpr hole q e q₁)
    (hD : ∀ i q q', hole i q = some q' → R.Reads q (D i).toList q') :
    R.Reads q (e.renderWith D).toList q₁ := by
  obtain ⟨atoms⟩ := e
  unfold ReadsExpr at h
  simp only [Expr.renderWith]
  induction atoms generalizing q with
  | nil => simpa [Reads, read] using h
  | cons a atoms ih =>
    rw [List.foldlM_cons] at h
    obtain ⟨q', ha, h⟩ := Option.bind_eq_some_iff.1 h
    rw [List.map_cons, String.join_cons, String.toList_append]
    refine Reads.append ?_ (ih h)
    cases a with
    | text text => exact ha
    | temporary i => exact hD i q q' ha

/-- An expression made from a template is read as the template is, if what is filled in does what
is said of the temporaries. -/
theorem Reads.render_subst {D : Nat → Expr} {stem : String} (h : R.ReadsExpr hole q e q₁)
    (hD : ∀ i q q', hole i q = some q' → R.Reads q ((D i).render stem).toList q') :
    R.Reads q ((e.subst D).render stem).toList q₁ := by
  rw [Expr.render_eq_renderWith, Expr.renderWith_subst]
  refine Reads.renderWith h fun i q q' hi => ?_
  rw [← Expr.render_eq_renderWith]
  exact hD i q q' hi

/-! ### Lists -/

/-- Expressions with a separator between them are read one after the other, if the separator leads
back to the state in which each of them begins. -/
theorem readsExpr_join {P : σ → Prop} {separator : String} {es : List Expr} (hq : P q)
    (hseparator : ∀ q', P q' → R.Reads q' separator.toList q)
    (hes : ∀ e ∈ es, ∃ q', P q' ∧ R.ReadsExpr hole q e q') :
    ∃ q', P q' ∧ R.ReadsExpr hole q (.join (.text separator) es) q' := by
  induction es with
  | nil => exact ⟨q, hq, rfl⟩
  | cons e es ih =>
    obtain ⟨⟨q₁, hq₁, he⟩, hes⟩ := List.forall_mem_cons.1 hes
    cases es with
    | nil => exact ⟨q₁, hq₁, he⟩
    | cons e' es =>
      obtain ⟨q₂, hq₂, hjoin⟩ := ih hes
      exact ⟨q₂, hq₂, (he.append (readsExpr_text.2 (hseparator q₁ hq₁))).append hjoin⟩

theorem renderWith_join_text (D : Nat → String) (separator : String) (l : List String) :
    (Expr.join (.text separator) (l.map .text)).renderWith D = separator.intercalate l := by
  induction l with
  | nil => rfl
  | cons s l ih =>
    cases l with
    | nil => simp [Expr.join]
    | cons s' l =>
      rw [String.intercalate_cons_cons, ← ih]
      simp [Expr.join, Expr.renderWith, Expr.text, Atom.renderWith, String.append_assoc]

theorem reads_intercalate {P : σ → Prop} {separator : String} {l : List String} (hq : P q)
    (hseparator : ∀ q', P q' → R.Reads q' separator.toList q)
    (hl : ∀ s ∈ l, ∃ q', P q' ∧ R.Reads q s.toList q') :
    ∃ q', P q' ∧ R.Reads q (separator.intercalate l).toList q' := by
  obtain ⟨q', hq', hjoin⟩ : ∃ q', P q' ∧
      R.ReadsExpr (fun _ _ => none) q (.join (.text separator) (l.map .text)) q' := by
    refine readsExpr_join hq hseparator fun e he => ?_
    obtain ⟨s, hs, rfl⟩ := List.mem_map.1 he
    obtain ⟨q', hq', hreads⟩ := hl s hs
    exact ⟨q', hq', readsExpr_text.2 hreads⟩
  refine ⟨q', hq', ?_⟩
  rw [← renderWith_join_text fun _ => ""]
  exact Reads.renderWith hjoin nofun

end Reader

end ShaderFlow
