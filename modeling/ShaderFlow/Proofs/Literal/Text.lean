import ShaderFlow.Proofs.Basic
import ShaderFlow.Proofs.Literal.Channels

/-!
# What the text of a literal tells

A literal can be read off its text, up to what patterns that are not numbers carry
(`Literal.text_loses_nothing`). No channel is written with a comma, so a comma in the text tells a
constructor from a bare channel. The name of the constructor ends where the first parenthesis
opens, and it gives the type; what stands between two commas is then one channel. A bare channel
shows its kind, and the kind is all there is to its type.
-/

namespace ShaderFlow

/-! ### Names of types -/

namespace Ty

/-- Types have names of their own. -/
theorem name_inj {t t' : Ty} (h : t.name = t'.name) : t = t' := by
  have hall : ∀ t ∈ all, ofName? t.name = some t := by decide
  have hname := hall t (mem_all t)
  rw [h, hall t' (mem_all t')] at hname
  exact (Option.some.inj hname).symm

theorem open_not_mem_name (t : Ty) : '(' ∉ t.name.toList := by
  have hall : ∀ t ∈ all, '(' ∉ t.name.toList := by decide
  exact hall t (mem_all t)

theorem two_le_channels {t : Ty} (h : t.isScalar = false) : 2 ≤ t.channels := by
  have hall : ∀ t ∈ all, t.isScalar = false → 2 ≤ t.channels := by decide
  exact hall t (mem_all t) h

end Ty

/-! ### Lists between commas -/

/-- Texts without a comma can be told from each other in a list. -/
theorem intercalate_inj {ts us : List String} (hlength : ts.length = us.length)
    (hts : ∀ t ∈ ts, ',' ∉ t.toList) (hus : ∀ u ∈ us, ',' ∉ u.toList)
    (h : ", ".intercalate ts = ", ".intercalate us) : ts = us := by
  induction ts generalizing us with
  | nil => exact (List.length_eq_zero_iff.1 hlength.symm).symm
  | cons t ts ih =>
    obtain ⟨u, us, rfl⟩ := List.exists_cons_of_length_eq_add_one hlength.symm
    obtain ⟨ht, hts⟩ := List.forall_mem_cons.1 hts
    obtain ⟨hu, hus⟩ := List.forall_mem_cons.1 hus
    have hlength : ts.length = us.length := Nat.succ.inj hlength
    cases ts with
    | nil =>
      cases List.length_eq_zero_iff.1 hlength.symm
      simpa using h
    | cons t' ts =>
      obtain ⟨u', us, rfl⟩ := List.exists_cons_of_length_eq_add_one hlength.symm
      have hlist := congrArg String.toList h
      simp only [String.intercalate_cons_cons, String.toList_append, List.append_assoc] at hlist
      -- the first text ends where the first comma stands
      obtain ⟨hfirst, hrest⟩ := append_inj_of_runs (p := (· != ',')) hlist
        (fun c hc => bne_iff_ne.2 fun hcomma => ht (hcomma ▸ hc))
        (fun c hc => bne_iff_ne.2 fun hcomma => hu (hcomma ▸ hc)) (by simp) (by simp)
      have hrest := String.toList_injective (List.append_cancel_left hrest)
      rw [String.toList_injective hfirst, ih hlength hts hus hrest]

/-! ### Channels as literals -/

namespace Channels

variable (c : Channels)

/-- Each channel as a literal of its own. -/
def singles : List Literal :=
  match c with
  | bools values => values.map fun v => ⟨.ofScalar .bool, .bools [v], rfl, rfl⟩
  | ints values => values.map fun v => ⟨.ofScalar .int, .ints [v], rfl, rfl⟩
  | uints values => values.map fun v => ⟨.ofScalar .uint, .uints [v], rfl, rfl⟩
  | floats values => values.map fun v => ⟨.ofScalar .float, .floats [v], rfl, rfl⟩
  | doubles values => values.map fun v => ⟨.ofScalar .double, .doubles [v], rfl, rfl⟩

theorem map_text_singles : c.singles.map Literal.text = c.texts := by
  cases c <;> simp [singles, texts, Literal.text, Ty.isScalar, Ty.ofScalar, Function.comp_def]

theorem length_singles : c.singles.length = c.length := by
  rw [← length_texts, ← map_text_singles, List.length_map]

theorem ty_of_mem_singles {p : Literal} (hp : p ∈ c.singles) : p.ty = .ofScalar c.scalar := by
  cases c <;>
  · obtain ⟨v, -, rfl⟩ := List.mem_map.1 hp
    rfl

theorem comma_not_mem_texts : ∀ t ∈ c.texts, ',' ∉ t.toList := by
  have hcomma : ∀ k, Literal.writes k ',' = false := by
    intro k
    cases k <;> decide
  exact fun t ht => Literal.not_mem_of_writes (c.isOf_texts t ht).writes ',' (hcomma c.scalar)

end Channels

namespace Literal

variable {a b l : Literal}

/-! ### Bare channels and constructors -/

theorem length_texts_eq (l : Literal) : l.channels.texts.length = l.ty.channels := by
  rw [Channels.length_texts, l.length_eq]

theorem texts_of_isScalar (h : l.ty.isScalar = true) : l.channels.texts = [l.text] := by
  have hlength := l.length_texts_eq
  rw [Ty.channels_of_isScalar h] at hlength
  obtain ⟨t, ht⟩ := List.length_eq_one_iff.1 hlength
  simp [text, h, ht]

theorem shownKind_text (h : l.ty.isScalar = true) : shownKind l.text = l.ty.scalar := by
  rw [← l.scalar_eq]
  exact (l.channels.isOf_texts l.text (by simp [texts_of_isScalar h])).shownKind_eq

theorem text_of_wide (h : l.ty.isScalar = false) :
    l.text = l.ty.name ++ "(" ++ ", ".intercalate l.channels.texts ++ ")" := by
  simp [text, h]

/-- A comma stands in the texts of constructors, and in no other. -/
theorem comma_mem_text_iff : ',' ∈ l.text.toList ↔ l.ty.isScalar = false := by
  cases h : l.ty.isScalar with
  | true =>
    have hcomma := l.channels.comma_not_mem_texts l.text (by simp [texts_of_isScalar h])
    simp [hcomma]
  | false =>
    have hlength := Ty.two_le_channels h
    rw [← l.length_texts_eq] at hlength
    obtain ⟨t, ts, hts⟩ := List.exists_cons_of_length_pos (Nat.lt_of_lt_of_le Nat.two_pos hlength)
    rw [hts, List.length_cons] at hlength
    obtain ⟨u, us, rfl⟩ := List.exists_cons_of_length_pos (Nat.le_of_succ_le_succ hlength)
    simp [text_of_wide h, hts]

/-- Bare channels with the same text are of one type and written the same. -/
theorem ty_and_texts_of_isScalar (ha : a.ty.isScalar = true) (hb : b.ty.isScalar = true)
    (h : a.text = b.text) : a.ty = b.ty ∧ a.channels.texts = b.channels.texts := by
  refine ⟨Ty.eq_of_channels ?_ ?_, ?_⟩
  · rw [← shownKind_text ha, h, shownKind_text hb]
  · rw [Ty.channels_of_isScalar ha, Ty.channels_of_isScalar hb]
  · rw [texts_of_isScalar ha, texts_of_isScalar hb, h]

/-- Constructors with the same text are of one type, and their channels are written the same. -/
theorem ty_and_texts_of_wide (ha : a.ty.isScalar = false) (hb : b.ty.isScalar = false)
    (h : a.text = b.text) : a.ty = b.ty ∧ a.channels.texts = b.channels.texts := by
  have hlist := congrArg String.toList h
  simp only [text_of_wide ha, text_of_wide hb, String.toList_append, List.append_assoc] at hlist
  obtain ⟨hname, hrest⟩ := append_inj_of_runs (p := (· != '(')) hlist
    (fun c hc => bne_iff_ne.2 fun hopen => a.ty.open_not_mem_name (hopen ▸ hc))
    (fun c hc => bne_iff_ne.2 fun hopen => b.ty.open_not_mem_name (hopen ▸ hc)) (by simp) (by simp)
  have hty : a.ty = b.ty := Ty.name_inj (String.toList_injective hname)
  have hrest := List.append_cancel_right (List.append_cancel_left hrest)
  refine ⟨hty, intercalate_inj ?_ a.channels.comma_not_mem_texts b.channels.comma_not_mem_texts
    (String.toList_injective hrest)⟩
  rw [a.length_texts_eq, b.length_texts_eq, hty]

/-- Literals are written the same exactly if they are of one type and agree in every channel, up to
what patterns that are not numbers carry. A literal of more than one channel is written as the name
of its type applied to as many literals of the element type as it has channels. -/
theorem text_loses_nothing (a b : Literal) :
    (a.text = b.text ↔ a.ty = b.ty ∧ a.channels.Agree b.channels) ∧
      (a.ty.isScalar = false →
        a.channels.singles.length = a.ty.channels ∧
        (∀ p ∈ a.channels.singles, p.ty = a.ty.element ∧ ',' ∉ p.text.toList) ∧
        a.text =
          a.ty.name ++ "(" ++ ", ".intercalate (a.channels.singles.map Literal.text) ++ ")") := by
  refine ⟨⟨fun h => ?_, ?_⟩, fun hwide => ⟨?_, fun p hp => ⟨?_, ?_⟩, ?_⟩⟩
  · have hsame : a.ty.isScalar = false ↔ b.ty.isScalar = false := by
      rw [← comma_mem_text_iff, h, comma_mem_text_iff]
    have htell : a.ty = b.ty ∧ a.channels.texts = b.channels.texts := by
      cases ha : a.ty.isScalar with
      | true =>
        have hb : b.ty.isScalar = true := by simpa [ha] using hsame
        exact ty_and_texts_of_isScalar ha hb h
      | false => exact ty_and_texts_of_wide ha (hsame.1 ha) h
    have hscalar : a.channels.scalar = b.channels.scalar := by
      rw [a.scalar_eq, b.scalar_eq, htell.1]
    exact ⟨htell.1, (Channels.texts_eq_iff hscalar).1 htell.2⟩
  · rintro ⟨hty, hagree⟩
    have hscalar : a.channels.scalar = b.channels.scalar := by
      rw [a.scalar_eq, b.scalar_eq, hty]
    rw [text, text, hty, (Channels.texts_eq_iff hscalar).2 hagree]
  · rw [Channels.length_singles, a.length_eq]
  · rw [a.channels.ty_of_mem_singles hp, a.scalar_eq, Ty.element]
  · refine a.channels.comma_not_mem_texts _ ?_
    rw [← Channels.map_text_singles]
    exact List.mem_map_of_mem hp
  · rw [Channels.map_text_singles, text_of_wide hwide]

/-! ### A sample -/

namespace Pair

/-- An infinity, and a pattern that is not a number. -/
def quiet : Literal := ⟨.vec2, .floats [0xff800000, 0x7fc00000], rfl, rfl⟩

/-- The same infinity, and another pattern that is not a number. -/
def signalling : Literal := ⟨.vec2, .floats [0xff800000, 0xff800001], rfl, rfl⟩

/-- The infinity is in the other place. -/
def swapped : Literal := ⟨.vec2, .floats [0x7fc00000, 0xff800000], rfl, rfl⟩

theorem agree : quiet.channels.Agree signalling.channels :=
  .floats (.cons (.inl rfl) (.cons (.inr ⟨rfl, rfl⟩) .nil))

theorem not_agree : ¬ quiet.channels.Agree swapped.channels := by
  rintro (_ | _ | _ | h | _)
  obtain ⟨hfirst | ⟨hfirst, -⟩, -⟩ := List.forall₂_cons.1 h
  · cases hfirst
  · cases hfirst

end Pair

/-- Which of the patterns it is does not show, but in which place it is does. -/
theorem text_loses_nothing_pair :
    (Pair.quiet ≠ Pair.signalling ∧ Pair.quiet.text = Pair.signalling.text) ∧
      Pair.quiet.text ≠ Pair.swapped.text ∧
      Pair.quiet.ty.isScalar = false ∧ Pair.quiet.channels.singles.length = 2 ∧
      Pair.quiet.text =
        "vec2(" ++ ", ".intercalate (Pair.quiet.channels.singles.map Literal.text) ++ ")" := by
  obtain ⟨hiff, hwide⟩ := text_loses_nothing Pair.quiet Pair.signalling
  obtain ⟨hlength, -, htext⟩ := hwide rfl
  refine ⟨⟨by decide, hiff.2 ⟨rfl, Pair.agree⟩⟩, fun h => ?_, rfl, hlength, htext⟩
  exact Pair.not_agree ((text_loses_nothing Pair.quiet Pair.swapped).1.1 h).2

end Literal

end ShaderFlow
