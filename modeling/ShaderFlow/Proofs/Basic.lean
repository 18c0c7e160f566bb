import Mathlib.Data.List.Forall2

/-!
# Results that may be errors, and lists side by side

What the parts of a computation gave, when the whole of it gave a value or an error. A fold over a
list is followed element by element (`Except.foldlM_induction`, `Except.exists_foldlM`,
`Except.exists_step_of_foldlM_error`): the invariant speaks of the elements done, and each step
knows where in the list it stands.
-/

namespace ShaderFlow

/-! ### Results -/

variable {ε ε' α β : Type}

theorem Except.bind_eq_ok {x : Except ε α} {f : α → Except ε β} {b : β} :
    x.bind f = .ok b ↔ ∃ a, x = .ok a ∧ f a = .ok b := by
  cases x <;> simp [Except.bind]

theorem Except.bind_eq_error {x : Except ε α} {f : α → Except ε β} {e : ε} :
    x.bind f = .error e ↔ x = .error e ∨ ∃ a, x = .ok a ∧ f a = .error e := by
  cases x <;> simp [Except.bind]

theorem Except.exists_bind_eq_ok {x : Except ε α} {f : α → Except ε β} :
    (∃ b, x.bind f = .ok b) ↔ ∃ a, x = .ok a ∧ ∃ b, f a = .ok b := by
  cases x <;> simp [Except.bind]

theorem Except.map_eq_ok {x : Except ε α} {f : α → β} {b : β} :
    x.map f = .ok b ↔ ∃ a, x = .ok a ∧ f a = b := by
  cases x <;> simp [Except.map]

theorem Except.map_eq_error {x : Except ε α} {f : α → β} {e : ε} :
    x.map f = .error e ↔ x = .error e := by
  cases x <;> simp [Except.map]

theorem Except.exists_ok_of_isOk {x : Except ε α} (h : x.isOk = true) : ∃ a, x = .ok a := by
  cases x with
  | ok a => exact ⟨a, rfl⟩
  | error e => cases h

theorem Except.mapError_eq_ok {x : Except ε α} {f : ε → ε'} {a : α} :
    x.mapError f = .ok a ↔ x = .ok a := by
  cases x <;> simp [Except.mapError]

theorem Except.mapError_eq_error {x : Except ε α} {f : ε → ε'} {e : ε'} :
    x.mapError f = .error e ↔ ∃ e', x = .error e' ∧ f e' = e := by
  cases x <;> simp [Except.mapError]

/-- What every successful step of a fold keeps holds at its end. -/
theorem Except.foldlM_induction {f : β → α → Except ε β} {P : List α → β → Prop} {l : List α}
    {b b' : β} (h : l.foldlM f b = .ok b') (hinit : P [] b)
    (hstep : ∀ done a rest, l = done ++ a :: rest → ∀ b b', P done b → f b a = .ok b' →
      P (done ++ [a]) b') : P l b' := by
  have key : ∀ done rest b, l = done ++ rest → P done b → rest.foldlM f b = .ok b' → P l b' := by
    intro done rest
    induction rest generalizing done with
    | nil =>
      rintro b rfl hP h
      cases h
      simpa using hP
    | cons a rest ih =>
      intro b hl hP h
      obtain ⟨b₁, hb₁, h⟩ := Except.bind_eq_ok.1 h
      exact ih (done ++ [a]) b₁ (by simp [hl]) (hstep done a rest hl b b₁ hP hb₁) h
  exact key [] l b rfl hinit h

/-- A fold whose steps succeed and keep an invariant succeeds. -/
theorem Except.exists_foldlM {f : β → α → Except ε β} {P : List α → β → Prop} {l : List α}
    {b : β} (hinit : P [] b)
    (hstep : ∀ done a rest, l = done ++ a :: rest → ∀ b, P done b →
      ∃ b', f b a = .ok b' ∧ P (done ++ [a]) b') : ∃ b', l.foldlM f b = .ok b' ∧ P l b' := by
  have key : ∀ done rest b, l = done ++ rest → P done b →
      ∃ b', rest.foldlM f b = .ok b' ∧ P l b' := by
    intro done rest
    induction rest generalizing done with
    | nil =>
      rintro b rfl hP
      exact ⟨b, rfl, by simpa using hP⟩
    | cons a rest ih =>
      intro b hl hP
      obtain ⟨b₁, hb₁, hP₁⟩ := hstep done a rest hl b hP
      obtain ⟨b', hb', hP'⟩ := ih (done ++ [a]) b₁ (by simp [hl]) hP₁
      exact ⟨b', Except.bind_eq_ok.2 ⟨b₁, hb₁, hb'⟩, hP'⟩
  exact key [] l b rfl hinit

/-- A fold that fails does so at some step, and the steps before it have kept an invariant. -/
theorem Except.exists_step_of_foldlM_error {f : β → α → Except ε β} {P : List α → β → Prop}
    {l : List α} {b : β} {e : ε} (h : l.foldlM f b = .error e) (hinit : P [] b)
    (hstep : ∀ done a rest, l = done ++ a :: rest → ∀ b b', P done b → f b a = .ok b' →
      P (done ++ [a]) b') :
    ∃ done a rest b, l = done ++ a :: rest ∧ P done b ∧ f b a = .error e := by
  have key : ∀ done rest b, l = done ++ rest → P done b → rest.foldlM f b = .error e →
      ∃ done a rest b, l = done ++ a :: rest ∧ P done b ∧ f b a = .error e := by
    intro done rest
    induction rest generalizing done with
    | nil => exact fun b _ _ h => nomatch h
    | cons a rest ih =>
      intro b hl hP h
      obtain h | ⟨b₁, hb₁, h⟩ := Except.bind_eq_error.1 h
      · exact ⟨done, a, rest, b, hl, hP, h⟩
      · exact ih (done ++ [a]) b₁ (by simp [hl]) (hstep done a rest hl b b₁ hP hb₁) h
  exact key [] l b rfl hinit h

/-- A fold gives the same value with other steps if these give what its own steps give. -/
theorem Except.foldlM_eq_ok_of_steps {f f' : β → α → Except ε β} {l : List α} {b b' : β}
    (h : l.foldlM f b = .ok b')
    (hstep : ∀ a ∈ l, ∀ b b', f b a = .ok b' → f' b a = .ok b') : l.foldlM f' b = .ok b' := by
  induction l generalizing b with
  | nil => exact h
  | cons a l ih =>
    obtain ⟨b₁, hb₁, h⟩ := Except.bind_eq_ok.1 h
    obtain ⟨ha, hl⟩ := List.forall_mem_cons.1 hstep
    exact Except.bind_eq_ok.2 ⟨b₁, ha b b₁ hb₁, ih h hl⟩

/-! ### Lists -/

theorem lookup_cons_ite [DecidableEq α] {x a : α} {b : β} {l : List (α × β)} :
    ((a, b) :: l).lookup x = if x = a then some b else l.lookup x := by
  by_cases h : x = a
  · simp [h]
  · simp [List.lookup_cons, beq_eq_false_iff_ne.2 h, h]

theorem exists_left_of_forall₂ {R : α → β → Prop} {as : List α} {bs : List β}
    (h : List.Forall₂ R as bs) {b : β} (hb : b ∈ bs) : ∃ a ∈ as, R a b := by
  induction h with
  | nil => cases hb
  | @cons a _ _ _ hab _ ih =>
    rcases List.mem_cons.1 hb with rfl | hb
    · exact ⟨a, List.mem_cons_self, hab⟩
    · obtain ⟨a', ha', hR⟩ := ih hb
      exact ⟨a', List.mem_cons_of_mem _ ha', hR⟩

theorem forall₂_trans {γ : Type} {R : α → β → Prop} {S : β → γ → Prop} {T : α → γ → Prop}
    (h : ∀ a b c, R a b → S b c → T a c) {as : List α} {bs : List β} {cs : List γ}
    (hR : List.Forall₂ R as bs) (hS : List.Forall₂ S bs cs) : List.Forall₂ T as cs := by
  induction hR generalizing cs with
  | nil =>
    cases hS
    exact .nil
  | cons hab _ ih =>
    cases hS with
    | cons hbc hS => exact .cons (h _ _ _ hab hbc) (ih hS)

theorem pairwise_of_forall₂ {R : α → β → Prop} {S : α → α → Prop} {T : β → β → Prop}
    (h : ∀ a b a' b', R a b → R a' b' → S a a' → T b b') {as : List α} {bs : List β}
    (hR : List.Forall₂ R as bs) (hS : as.Pairwise S) : bs.Pairwise T := by
  induction hR with
  | nil => exact .nil
  | @cons a b _ _ hab hrest ih =>
    obtain ⟨ha, hS⟩ := List.pairwise_cons.1 hS
    refine List.pairwise_cons.2 ⟨fun b' hb' => ?_, ih hS⟩
    obtain ⟨a', ha', hab'⟩ := exists_left_of_forall₂ hrest hb'
    exact h a b a' b' hab hab' (ha a' ha')

/-- A list can be taken apart where a run of elements of one class ends. -/
theorem append_inj_of_runs {p : α → Bool} {as as' bs bs' : List α} (h : as ++ bs = as' ++ bs')
    (has : ∀ a ∈ as, p a = true) (has' : ∀ a ∈ as', p a = true)
    (hbs : ∀ a ∈ bs.head?, p a = false) (hbs' : ∀ a ∈ bs'.head?, p a = false) :
    as = as' ∧ bs = bs' := by
  have hrun : ∀ {as bs : List α}, (∀ a ∈ as, p a = true) → (∀ a ∈ bs.head?, p a = false) →
      (as ++ bs).takeWhile p = as := by
    intro as bs has hbs
    rw [List.takeWhile_append_of_pos has]
    cases bs with
    | nil => simp
    | cons b bs => simp [hbs b rfl]
  have heq : as = as' := by rw [← hrun has hbs, h, hrun has' hbs']
  subst heq
  exact ⟨rfl, List.append_cancel_left h⟩

end ShaderFlow
