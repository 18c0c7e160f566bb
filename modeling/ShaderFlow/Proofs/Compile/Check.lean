import ShaderFlow.Proofs.Compile.Errors

/-!
# Checking without writing

The nodes of a schedule are checked where they are not written, and written where they are. Both
ask the backend for the same things in the same order, but only writing gives textures places in
the sampler array. So the two agree unless the array is full (`Schedule.check_agrees`), and it
cannot be full if there is room for the textures of the schedule that have no place yet.

* `Requirement.check_eq_error` says that a check fails exactly for what the backend lacks;
* `Schedule.attempt_eq_check_or_full` compares the two on the nodes up to the one at which writing
  stops;
* `Schedule.attempt_eq_check_of_room` counts the places that are taken in the end.
-/

namespace ShaderFlow

/-! ### Room for textures -/

/-- The textures of a schedule that have no place yet. -/
def Schedule.newTextures (plan : Schedule) (g : Graph) (textures : TextureArray) :
    Finset Texture :=
  (plan.order.filterMap g.texture?).toFinset \ textures.textures.toFinset

variable {g : Graph} {b : Backend} {e : Error}

/-- A texture that is refused would take a place after the last one, whatever comes later. -/
theorem Emission.Full.lt_length {s : Emission} {t : Texture} (h : s.Full b t e)
    (needed : List Texture) : ∃ count, b.HasSamplers count ∧
      count.toNat < (TextureArray.placeAll s.textures.textures (t :: needed)).length := by
  obtain ⟨hnew, resolution, set, name, count, hres, hd, hfull, -⟩ := h
  refine ⟨count, ⟨resolution, set, name, Backend.resolve_eq_ok.2 hres, hd⟩, ?_⟩
  have hpos : 0 < ((t :: needed).toFinset \ s.textures.textures.toFinset).card :=
    Finset.card_pos.2 ⟨t, by simp [hnew]⟩
  rw [TextureArray.length_placeAll]
  omega

/-! ### Nodes that fail their check -/

theorem Backend.Lacks.check {r : Requirement} (h : b.Lacks r e) :
    (r.check b).result = .error e := by
  cases h with
  | unresolved hnone =>
    have hres := resolve_eq_error.2 ⟨hnone, rfl⟩
    simp [Requirement.check, resolveTraced, hres, Except.bind]
  | unreadable hsome hv =>
    have hres := resolve_eq_ok.2 hsome
    have haccessor := accessor_eq_error.2 ⟨hv, rfl⟩
    simp [Requirement.check, resolveTraced, Requirement.needs, Requirement.checkThrough, hres,
      haccessor, Except.bind, Except.map]
  | incompatible hsome hd hkind =>
    have hres := resolve_eq_ok.2 hsome
    have hcapacity := (capacity_eq_error hd).2 ⟨hkind, rfl⟩
    simp [Requirement.check, resolveTraced, Requirement.needs, Requirement.checkThrough, hres,
      hcapacity, Except.bind, Except.map]

/-- A check fails exactly for what the backend lacks. -/
theorem Requirement.check_eq_error {r : Requirement} :
    (r.check b).result = .error e ↔ b.Lacks r e :=
  ⟨lacks_of_check, Backend.Lacks.check⟩

namespace Schedule

theorem checkNodes_append (done rest : List NodeId) : (checkNodes g b (done ++ rest)).result =
    (checkNodes g b done).result.bind fun _ => (checkNodes g b rest).result := by
  induction done with
  | nil => rfl
  | cons id done ih =>
    rw [List.cons_append, checkNodes, checkNodes, Traced.result_bind, Traced.result_bind, ih]
    cases (checkNode g b id).result <;> rfl

/-- The nodes are checked in order, and the first for which something is lacking decides. -/
theorem checkNodes_of_lacks {done rest : List NodeId} {id : NodeId} {n : Node} {r : Requirement}
    (hdone : (checkNodes g b done).result = .ok ()) (hn : g.node? id = some n)
    (hr : n.function.requirement = some r) (h : b.Lacks r e) :
    (checkNodes g b (done ++ id :: rest)).result = .error e := by
  rw [checkNodes_append, hdone, checkNodes, Traced.result_bind, checkNode, hn]
  simp only [hr, Requirement.check_eq_error.2 h, Except.bind]

/-! ### Writing and checking -/

/-- Whether the nodes of a schedule can be written when the textures have these places, or why
they cannot be. -/
def attempt (plan : Schedule) (o : Options) (g : Graph) (b : Backend) (textures : TextureArray) :
    Except Error Unit :=
  (Emission.traced (Emission.schedule o g b { textures } plan)).result.map fun _ => ()

/-- The nodes cannot be written for want of a place for a texture. -/
def OutOfRoom (attempted : Except Error Unit) : Prop :=
  ∃ binding capacity, attempted = .error (.textureSlotsExhausted binding capacity)

variable {roots : List NodeId} {plan : Schedule}

theorem checkNodes_of_ran {before : List Texture} {done rest : List NodeId} {s : Emission}
    (hsound : plan.Sound g roots) (horder : plan.order = done ++ rest)
    (h : Emission.Ran g b before done s) : (checkNodes g b done).result = .ok () := by
  have hcontains : ∀ id ∈ done, g.contains id = true := fun id hid =>
    (hsound.wired id (by simp [horder, hid])).contains
  exact (checkNodes_eq_ok hcontains).2 h.provided

/-- Writing a schedule gives what its check gives, or it stops at a node for whose texture there is
no place. -/
theorem attempt_eq_check_or_full (hsound : plan.Sound g roots) (o : Options) (b : Backend)
    (textures : TextureArray) :
    plan.attempt o g b textures = (plan.check g b).result ∨
      ∃ done id rest s t e, plan.order = done ++ id :: rest ∧
        Emission.Ran g b textures.textures done s ∧ g.texture? id = some t ∧ s.Full b t e ∧
        plan.attempt o g b textures = .error e := by
  unfold attempt
  cases hwritten : Emission.schedule o g b { textures } plan with
  | ok s =>
    have hran := Emission.ran_of_schedule hsound hwritten
    exact .inl (checkNodes_of_ran hsound (List.append_nil _).symm hran).symm
  | error stopped =>
    obtain ⟨done, id, rest, s, n, r, horder, hran, hn, hr, hcause⟩ :=
      Emission.exists_cause_of_schedule hsound hwritten
    obtain hlacks | ⟨t, rfl, hfull⟩ := hcause
    · left
      rw [check, horder,
        checkNodes_of_lacks (checkNodes_of_ran hsound horder hran) hn hr hlacks]
      rfl
    · exact .inr ⟨done, id, rest, s, t, stopped.error, horder, hran,
        Graph.texture?_eq_some.2 ⟨n, hn, hr⟩, hfull, rfl⟩

theorem attempt_eq_check_or_outOfRoom (hsound : plan.Sound g roots) (o : Options) (b : Backend)
    (textures : TextureArray) :
    plan.attempt o g b textures = (plan.check g b).result ∨
      OutOfRoom (plan.attempt o g b textures) := by
  obtain heq | ⟨-, -, -, s, t, e, -, -, -, hfull, he⟩ :=
    attempt_eq_check_or_full hsound o b textures
  · exact .inl heq
  · obtain ⟨-, resolution, set, name, count, -, -, -, rfl⟩ := hfull
    exact .inr ⟨name, count.toNat, he⟩

/-- With room for the new textures of the schedule, the array is never full. -/
theorem attempt_eq_check_of_room (hsound : plan.Sound g roots) (o : Options) {b : Backend}
    {textures : TextureArray} (hroom : ∀ count, b.HasSamplers count →
      textures.textures.length + (plan.newTextures g textures).card ≤ count.toNat) :
    plan.attempt o g b textures = (plan.check g b).result := by
  obtain heq | ⟨done, id, rest, s, t, e, horder, hran, ht, hfull, -⟩ :=
    attempt_eq_check_or_full hsound o b textures
  · exact heq
  · -- the textures of all nodes are those written so far, this one and those of the rest
    obtain ⟨count, hcount, hlt⟩ := hfull.lt_length (rest.filterMap g.texture?)
    have hall := hroom count hcount
    rw [newTextures, ← TextureArray.length_placeAll, horder, List.filterMap_append,
      List.filterMap_cons_some ht, TextureArray.placeAll_append, ← hran.textures] at hall
    omega

/-- **Checking and writing agree.** Whether the nodes of a schedule are checked or written, the
outcome is the same, but that writing can also fail for want of a place for a texture. It does not
if the places taken and the new textures of the schedule are within the sampler array. -/
theorem check_agrees (hg : g.Built) (hplan : ofRoots g roots = .ok plan) (o : Options)
    (b : Backend) (textures : TextureArray) :
    ((plan.check g b).result = .ok () →
        plan.attempt o g b textures = .ok () ∨ OutOfRoom (plan.attempt o g b textures)) ∧
      (∀ e, (plan.check g b).result = .error e →
        plan.attempt o g b textures = .error e ∨ OutOfRoom (plan.attempt o g b textures)) ∧
      (plan.attempt o g b textures = .ok () → (plan.check g b).result = .ok ()) ∧
      ((∀ count, b.HasSamplers count →
          textures.textures.length + (plan.newTextures g textures).card ≤ count.toNat) →
        plan.attempt o g b textures = (plan.check g b).result) := by
  have hsound := sound_of_ofRoots hg.wellFormed hplan
  have hagree := attempt_eq_check_or_outOfRoom hsound o b textures
  refine ⟨fun hok => ?_, fun e herror => ?_, fun hok => ?_, attempt_eq_check_of_room hsound o⟩
  · rwa [hok] at hagree
  · rwa [herror] at hagree
  · obtain heq | ⟨binding, capacity, hfull⟩ := hagree
    · exact heq.symm.trans hok
    · cases hok.symm.trans hfull

end Schedule

/-! ### A sample -/

namespace Textured

/-- The samples, after the coordinates that both take. -/
def plan : Schedule :=
  ⟨[.ofIndex 0, .ofIndex 1, .ofIndex 2], ⟨[(.ofIndex 0, 2), (.ofIndex 1, 1), (.ofIndex 2, 1)]⟩⟩

theorem ofRoots_eq : Schedule.ofRoots graph [.ofIndex 1, .ofIndex 2] = .ok plan := by
  decide +kernel

theorem room (count : UInt32) (h : backend.HasSamplers count) :
    ({} : TextureArray).textures.length + (plan.newTextures graph {}).card ≤ count.toNat := by
  cases h.unique hasSamplers
  decide

end Textured

/-- Both samples have places in an array of four, and so they are written. In an array of one they
have not, although the check finds nothing lacking. Without any resources, the check and the
attempt find that the coordinates are lacking. -/
theorem Schedule.check_agrees_textured :
    Textured.plan.attempt {} Textured.graph Textured.backend {} = .ok () ∧
      (Textured.plan.check Textured.graph Textured.narrow).result = .ok () ∧
      OutOfRoom (Textured.plan.attempt {} Textured.graph Textured.narrow {}) ∧
      Textured.plan.attempt {} Textured.graph {} {} =
        .error (.unresolvedCapability .vertexUv) := by
  have h := check_agrees (g := Textured.graph) (Graph.built_build _) Textured.ofRoots_eq {}
  obtain ⟨-, -, -, hroom⟩ := h Textured.backend {}
  obtain ⟨hchecked, -⟩ := h Textured.narrow {}
  obtain ⟨-, -, -, hnone⟩ := h {} {}
  have hnarrow : (Textured.plan.check Textured.graph Textured.narrow).result = .ok () := by
    decide +kernel
  refine ⟨?_, hnarrow, (hchecked hnarrow).resolve_left (by decide), ?_⟩
  · rw [hroom Textured.room]
    decide +kernel
  · rw [hnone fun count hcount => absurd hcount (Sample.not_hasSamplers count)]
    decide +kernel

end ShaderFlow
