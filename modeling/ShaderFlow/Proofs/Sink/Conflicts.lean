import Mathlib.Data.Finset.Disjoint
import Mathlib.Data.Finset.Range
import Mathlib.Data.Nat.Bitwise
import ShaderFlow.Proofs.Sink.Routes

/-!
# Channels that links write

A link writes a set of channels of its output (`Selector.channels`). Whether a new link is in the
way of earlier ones is decided on words of sixteen bits, one bit for each channel. The widest types
fill the word, and a selector that has passed the check of types never goes beyond it, so the bits
of a word are exactly the channels (`Selector.testBit_word`), and those of the words of all links to
an output, put together, are the channels that are written (`Sink.testBit_taken`).

* `Sink.link_eq_ok_iff` says when a link is accepted, in terms of sets of channels;
* `Sink.Built.linksApart` says that no two links of a sink write a common channel.
-/

namespace ShaderFlow

theorem Ty.isScalar_iff {t : Ty} : t.isScalar = true ↔ t.channels = 1 := by
  rcases t with ⟨s, shape, h⟩
  cases shape <;> simp [isScalar, channels, Shape.channels]

/-! ### Words of bits -/

namespace Selector

variable {s : Selector} {ty p out : Ty} {c i : Nat}

/-- The channels of an output of a type that are written through the selector. -/
def channels : Selector → Ty → Finset Nat
  | whole, ty => Finset.range ty.channels
  | channel c, _ => {c}

/-- What the selector asks of the types of a parameter and an output that it joins. -/
def Joins : Selector → Ty → Ty → Prop
  | whole, p, out => p.channels = out.channels
  | channel c, p, out => p.isScalar = true ∧ c < out.channels

theorem fits_iff_joins : Sink.fits s p out = true ↔ s.Joins p out := by
  cases s with
  | whole => simp [Sink.fits, width, within, Joins]
  | channel c => simp [Sink.fits, width, within, Joins, Ty.isScalar_iff]

theorem Joins.within (h : s.Joins p out) : s.within out = true := by
  cases s with
  | whole => rfl
  | channel c => exact decide_eq_true h.2

theorem toNat_word_whole (ty : Ty) : (whole.word ty).toNat = 2 ^ ty.channels - 1 := by
  have hc : ty.channels < 32 := Nat.lt_of_le_of_lt ty.channels_le (by decide)
  have hshift : ty.channels.toUInt32.toNat = ty.channels := by
    rw [Nat.toUInt32, UInt32.toNat_ofNat']
    omega
  have hpos : 0 < 2 ^ ty.channels := Nat.two_pow_pos _
  have hle : 2 ^ ty.channels ≤ 2 ^ 16 := Nat.pow_le_pow_right (by decide) ty.channels_le
  have hlt : 2 ^ ty.channels < 2 ^ 32 := Nat.lt_of_le_of_lt hle (by decide)
  have hpow : ((1 : UInt32) <<< ty.channels.toUInt32).toNat = 2 ^ ty.channels := by
    rw [UInt32.toNat_shiftLeft, hshift, Nat.mod_eq_of_lt hc, UInt32.toNat_one, Nat.one_shiftLeft,
      Nat.mod_eq_of_lt hlt]
  -- the widest matrices need a seventeenth bit before the subtraction, and none after it
  rw [word, UInt32.toNat_toUInt16, UInt32.toNat_sub_of_le, hpow, UInt32.toNat_one]
  · exact Nat.mod_eq_of_lt (by omega)
  · rw [UInt32.le_iff_toNat_le, hpow, UInt32.toNat_one]
    exact hpos

theorem toNat_word_channel (hc : c < 16) (ty : Ty) : ((channel c).word ty).toNat = 2 ^ c := by
  have hshift : c.toUInt16.toNat = c := by
    rw [Nat.toUInt16, UInt16.toNat_ofNat']
    omega
  have hlt : 2 ^ c < 2 ^ 16 := Nat.pow_lt_pow_right (by decide) hc
  rw [word, UInt16.toNat_shiftLeft, hshift, Nat.mod_eq_of_lt hc, UInt16.toNat_one,
    Nat.one_shiftLeft, Nat.mod_eq_of_lt hlt]

theorem testBit_word (h : s.within ty = true) :
    (s.word ty).toNat.testBit i = true ↔ i ∈ s.channels ty := by
  cases s with
  | whole =>
    rw [toNat_word_whole, Nat.testBit_two_pow_sub_one, decide_eq_true_eq, channels,
      Finset.mem_range]
  | channel c =>
    have hc : c < 16 := Nat.lt_of_lt_of_le (of_decide_eq_true h) ty.channels_le
    rw [toNat_word_channel hc, Nat.testBit_two_pow, decide_eq_true_eq, channels,
      Finset.mem_singleton, eq_comm]

theorem channels_nonempty (s : Selector) (ty : Ty) : (s.channels ty).Nonempty := by
  cases s with
  | whole => exact ⟨0, Finset.mem_range.2 ty.channels_pos⟩
  | channel c => exact ⟨c, Finset.mem_singleton_self c⟩

end Selector

theorem testBit_foldl_or {α : Type} (f : α → UInt16) (as : List α) (w : UInt16) (i : Nat) :
    (as.foldl (fun w a => w ||| f a) w).toNat.testBit i = true ↔
      w.toNat.testBit i = true ∨ ∃ a ∈ as, (f a).toNat.testBit i = true := by
  induction as generalizing w with
  | nil => simp
  | cons a as ih =>
    simp only [List.foldl_cons, ih, UInt16.toNat_or, Nat.testBit_or, Bool.or_eq_true,
      List.exists_mem_cons_iff, or_assoc]

theorem and_eq_zero_iff {v w : UInt16} :
    v &&& w = 0 ↔ ∀ i, ¬ (v.toNat.testBit i = true ∧ w.toNat.testBit i = true) := by
  rw [← UInt16.toNat_inj, UInt16.toNat_and, UInt16.toNat_zero]
  constructor
  · intro h i hi
    have hbit := Nat.testBit_and v.toNat w.toNat i
    rw [h, hi.1, hi.2] at hbit
    simp at hbit
  · intro h
    refine Nat.zero_of_testBit_eq_false fun i => ?_
    rw [Nat.testBit_and, ← Bool.not_eq_true, Bool.and_eq_true]
    exact h i

/-! ### What is taken -/

namespace Sink

variable {k : Sink} {parameter output : Nat} {selector : Selector} {p : Parameter} {out : Output}

/-- No link to the output writes a channel that the selector selects. -/
def Free (k : Sink) (output : Nat) (selector : Selector) (ty : Ty) : Prop :=
  ∀ l ∈ k.links, l.output = output →
    Disjoint (selector.channels ty) (l.selector.channels ty)

theorem LinksFit.within (h : k.LinksFit) (ho : k.outputs[output]? = some out) :
    ∀ l ∈ k.links, l.output = output → l.selector.within out.ty = true := by
  rintro l hl rfl
  obtain ⟨q, out', -, ho', hfits⟩ := h l hl
  cases ho.symm.trans ho'
  exact (Selector.fits_iff_joins.1 hfits).within

/-- The bits that are taken are the channels that links to the output write. -/
theorem testBit_taken (h : k.LinksFit) (ho : k.outputs[output]? = some out) (i : Nat) :
    (k.taken output out.ty).toNat.testBit i = true ↔
      ∃ l ∈ k.links, l.output = output ∧ i ∈ l.selector.channels out.ty := by
  rw [taken, testBit_foldl_or]
  simp only [UInt16.toNat_zero, Nat.zero_testBit, Bool.false_eq_true, false_or, List.mem_filter,
    beq_iff_eq, and_assoc]
  constructor
  · rintro ⟨l, hl, hlo, hi⟩
    exact ⟨l, hl, hlo, (Selector.testBit_word (h.within ho l hl hlo)).1 hi⟩
  · rintro ⟨l, hl, hlo, hi⟩
    exact ⟨l, hl, hlo, (Selector.testBit_word (h.within ho l hl hlo)).2 hi⟩

/-- The bits of the overlap are the selected channels that are written already. -/
theorem testBit_overlap (h : k.LinksFit) (ho : k.outputs[output]? = some out)
    (hwithin : selector.within out.ty = true) (i : Nat) :
    (k.taken output out.ty &&& selector.word out.ty).toNat.testBit i = true ↔
      i ∈ selector.channels out.ty ∧
        ∃ l ∈ k.links, l.output = output ∧ i ∈ l.selector.channels out.ty := by
  rw [UInt16.toNat_and, Nat.testBit_and, Bool.and_eq_true, testBit_taken h ho,
    Selector.testBit_word hwithin, and_comm]

theorem overlap_eq_zero_iff (h : k.LinksFit) (ho : k.outputs[output]? = some out)
    (hwithin : selector.within out.ty = true) :
    k.taken output out.ty &&& selector.word out.ty = 0 ↔ k.Free output selector out.ty := by
  rw [and_eq_zero_iff]
  simp only [testBit_taken h ho, Selector.testBit_word hwithin, Free, Finset.disjoint_left]
  constructor
  · intro hnone l hl hlo i hi hi'
    exact hnone i ⟨⟨l, hl, hlo, hi'⟩, hi⟩
  · rintro hfree i ⟨⟨l, hl, hlo, hi'⟩, hi⟩
    exact hfree l hl hlo hi hi'

/-! ### Links that are accepted and refused -/

/-- A link whose ends are there and fit is decided by the overlap alone. -/
theorem link_eq_of_joins (hp : k.parameters[parameter]? = some p)
    (ho : k.outputs[output]? = some out) (hjoins : selector.Joins p.ty out.ty) :
    k.link parameter output selector =
      if k.taken output out.ty &&& selector.word out.ty = 0 then
        .ok { k with links := k.links ++ [⟨parameter, output, selector⟩] }
      else
        .error (.outputConflict out.name
          (k.taken output out.ty &&& selector.word out.ty).toNat) := by
  simp only [link, hp, ho, Selector.fits_iff_joins.2 hjoins, ↓reduceIte]

/-- A link is accepted if its ends are there and fit and its channels are free. -/
theorem link_eq_ok_iff (h : k.LinksFit) {k' : Sink} :
    k.link parameter output selector = .ok k' ↔
      (∃ p out, k.parameters[parameter]? = some p ∧ k.outputs[output]? = some out ∧
        selector.Joins p.ty out.ty ∧ k.Free output selector out.ty) ∧
      k' = { k with links := k.links ++ [⟨parameter, output, selector⟩] } := by
  constructor
  · intro hk'
    obtain ⟨p, out, hp, ho, hfits, rfl⟩ := link_eq_ok hk'
    have hjoins := Selector.fits_iff_joins.1 hfits
    refine ⟨⟨p, out, hp, ho, hjoins, ?_⟩, rfl⟩
    rw [link_eq_of_joins hp ho hjoins] at hk'
    split_ifs at hk' with hzero
    exact (overlap_eq_zero_iff h ho hjoins.within).1 hzero
  · rintro ⟨⟨p, out, hp, ho, hjoins, hfree⟩, rfl⟩
    rw [link_eq_of_joins hp ho hjoins, if_pos ((overlap_eq_zero_iff h ho hjoins.within).2 hfree)]

/-- A link that only overlaps is refused with the channels in which it does. -/
theorem link_conflict (h : k.LinksFit) (hp : k.parameters[parameter]? = some p)
    (ho : k.outputs[output]? = some out) (hjoins : selector.Joins p.ty out.ty)
    (hfree : ¬ k.Free output selector out.ty) :
    ∃ mask, k.link parameter output selector = .error (.outputConflict out.name mask) ∧
      ∀ i, mask.testBit i = true ↔ i ∈ selector.channels out.ty ∧
        ∃ l ∈ k.links, l.output = output ∧ i ∈ l.selector.channels out.ty := by
  refine ⟨_, ?_, testBit_overlap h ho hjoins.within⟩
  rw [link_eq_of_joins hp ho hjoins, if_neg fun hzero => hfree ?_]
  exact (overlap_eq_zero_iff h ho hjoins.within).1 hzero

/-! ### Links are kept apart -/

/-- Each link joins a parameter and an output that fit, and no two links to one output write a
common channel. -/
structure LinksApart (k : Sink) : Prop where
  /-- The ends of each link are there, and they fit. -/
  joined : ∀ l ∈ k.links, ∃ p out, k.parameters[l.parameter]? = some p ∧
    k.outputs[l.output]? = some out ∧ l.selector.Joins p.ty out.ty
  /-- Two links to one output write no common channel. -/
  apart : k.links.Pairwise fun l l' => l.output = l'.output →
    ∀ out, k.outputs[l.output]? = some out →
      Disjoint (l.selector.channels out.ty) (l'.selector.channels out.ty)

theorem LinksApart.linksFit (h : k.LinksApart) : k.LinksFit := by
  intro l hl
  obtain ⟨p, out, hp, ho, hjoins⟩ := h.joined l hl
  exact ⟨p, out, hp, ho, Selector.fits_iff_joins.2 hjoins⟩

theorem LinksFit.joined (h : k.LinksFit) : ∀ l ∈ k.links, ∃ p out,
    k.parameters[l.parameter]? = some p ∧ k.outputs[l.output]? = some out ∧
      l.selector.Joins p.ty out.ty := by
  intro l hl
  obtain ⟨p, out, hp, ho, hfits⟩ := h l hl
  exact ⟨p, out, hp, ho, Selector.fits_iff_joins.1 hfits⟩

/-- Edits but links leave all links in place, and the outputs that they lead to. -/
theorem LinksApart.apply (h : k.LinksApart) {e : Edit} {k' : Sink} (he : k.apply e = .ok k') :
    k'.LinksApart := by
  refine ⟨(h.linksFit.apply he).joined, ?_⟩
  cases e with
  | output o =>
    cases he
    refine h.apart.imp_of_mem fun {l l'} hl _ hapart heq out ho => ?_
    have hlt := (h.linksFit.links_refer l hl).2
    rw [addOutput, List.getElem?_append_left hlt] at ho
    exact hapart heq out ho
  | parameter name ty =>
    cases he
    exact h.apart
  | bind g parameter node =>
    obtain ⟨-, -, -, -, -, rfl⟩ := bindParameter_eq_ok he
    exact h.apart
  | link parameter output selector =>
    obtain ⟨⟨p, out, -, ho, -, hfree⟩, rfl⟩ := (link_eq_ok_iff h.linksFit).1 he
    refine List.pairwise_append.2 ⟨h.apart, List.pairwise_singleton _ _, ?_⟩
    intro l hl l' hl' heq out' ho'
    cases List.mem_singleton.1 hl'
    rw [show l.output = output from heq] at ho'
    cases ho.symm.trans ho'
    exact (hfree l hl heq).symm

theorem Built.linksApart (h : k.Built) : k.LinksApart :=
  h.induction ⟨by simp [empty], .nil⟩ fun _ _ _ _ hk he => hk.apply he

theorem after_eq_of_error {e : Edit} {err : Error} (h : k.apply e = .error err) :
    k.after e = k := by
  simp [after, h]

/-- **Links are kept apart, and no more is refused than that takes.** In a sink that was built,
each link joins what is there and fits, and no two links to one output write a common channel. A
link is accepted exactly if its ends are there and fit and none of its channels is written yet. If
some of them are, and nothing else is wrong, the error has exactly these as its bits. An edit that
is refused changes nothing. -/
theorem links_conflict_exactly (hk : k.Built) :
    k.LinksApart ∧
      (∀ parameter output selector k', k.link parameter output selector = .ok k' ↔
        (∃ p out, k.parameters[parameter]? = some p ∧ k.outputs[output]? = some out ∧
          selector.Joins p.ty out.ty ∧ k.Free output selector out.ty) ∧
        k' = { k with links := k.links ++ [⟨parameter, output, selector⟩] }) ∧
      (∀ parameter output selector p out, k.parameters[parameter]? = some p →
        k.outputs[output]? = some out → selector.Joins p.ty out.ty →
        ¬ k.Free output selector out.ty →
        ∃ mask, k.link parameter output selector = .error (.outputConflict out.name mask) ∧
          ∀ i, mask.testBit i = true ↔ i ∈ selector.channels out.ty ∧
            ∃ l ∈ k.links, l.output = output ∧ i ∈ l.selector.channels out.ty) ∧
      ∀ e err, k.apply e = .error err → k.after e = k := by
  have hfit := hk.links_fit
  refine ⟨hk.linksApart, fun parameter output selector k' => link_eq_ok_iff hfit, ?_, ?_⟩
  · intro parameter output selector p out hp ho hjoins hfree
    exact link_conflict hfit hp ho hjoins hfree
  · intro e err he
    exact after_eq_of_error he

/-- A sink with a matrix of which the first and the last channel are written. -/
def corners : Sink :=
  build [.output ⟨"basis", .vertex, 0, .mat4⟩, .parameter "matrix" .mat4, .parameter "value" .float,
    .link 1 0 (.channel 15), .link 1 0 (.channel 0)]

theorem links_corners : corners.links = [⟨1, 0, .channel 15⟩, ⟨1, 0, .channel 0⟩] := rfl

/-- Another channel of the matrix can be written still, and the whole matrix cannot, because of
exactly the two channels. -/
theorem links_conflict_exactly_corners : corners.Built ∧ corners.LinksApart ∧
    (∃ k', corners.link 1 0 (.channel 14) = .ok k') ∧
    ∃ mask, corners.link 0 0 .whole = .error (.outputConflict "basis" mask) ∧
      ∀ i, mask.testBit i = true ↔ i = 0 ∨ i = 15 := by
  have hbuilt : corners.Built := built_build _
  obtain ⟨hapart, hok, hconflict, -⟩ := links_conflict_exactly hbuilt
  refine ⟨hbuilt, hapart, ⟨_, (hok 1 0 (.channel 14) _).2 ⟨⟨_, _, rfl, rfl, ?_, ?_⟩, rfl⟩⟩, ?_⟩
  · exact ⟨rfl, by decide⟩
  · simp [Free, links_corners, Selector.channels]
  · have htaken : ¬ corners.Free 0 .whole .mat4 := fun hfree =>
      absurd (hfree ⟨1, 0, .channel 0⟩ (by simp [links_corners]) rfl) (by decide)
    obtain ⟨mask, herr, hmask⟩ := hconflict 0 0 .whole _ _ rfl rfl rfl htaken
    refine ⟨mask, herr, fun i => (hmask i).trans ?_⟩
    have hchannels : Ty.mat4.channels = 16 := rfl
    simp only [links_corners, List.mem_cons, List.not_mem_nil, or_false, exists_eq_or_imp,
      exists_eq_left, Selector.channels, Finset.mem_singleton, Finset.mem_range, hchannels,
      true_and]
    omega

end Sink

end ShaderFlow
