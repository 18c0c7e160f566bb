import ShaderFlow.Backend.Exchange
import ShaderFlow.Proofs.Basic

/-!
# Writing and reading descriptions

What is written of a description is read back as it was (`Description.decode_encode`), by one lemma
for each part of the format. Much more can be read than is ever written, and the types of fields are
the part that may be refused although it is well formed. `Description.typesIn` lists the values that
a reader takes for types, wherever they stand, and a description has just the types that these
values ask for, one for one (`Description.types_of_decode`). So a value with a field whose type the
language does not have is never read.
-/

namespace ShaderFlow

/-! ### Plain values -/

namespace Json

variable {v content : Json} {name : String}

theorem variant?_eq_bare : v.variant? = some (name, none) ↔ v = .string name := by
  unfold variant?
  split
  · simp
  · simp
  next hstring _ =>
    simp only [reduceCtorEq, false_iff]
    exact hstring name

theorem variant?_eq_full :
    v.variant? = some (name, some content) ↔ v = .object [(name, content)] := by
  unfold variant?
  split
  · simp
  · simp
  next _ hobject =>
    simp only [reduceCtorEq, false_iff]
    exact hobject name content

end Json

namespace Decoder

variable {α : Type} {read : Decoder α} {a : α} {v : Json}

theorem record_eq_ok {count : Nat} :
    record count read v = .ok a ↔ v.isRecord count = true ∧ read v = .ok a := by
  unfold record
  split <;> simp [*]

theorem required_eq_ok {field : Option Json} :
    required read field = .ok a ↔ ∃ v, field = some v ∧ read v = .ok a := by
  cases field <;> simp [required]

theorem optional_eq_ok {field : Option Json} {default : α} :
    optional read default field = .ok a ↔
      (field = none ∧ a = default) ∨ ∃ v, field = some v ∧ read v = .ok a := by
  cases field <;> simp [optional, eq_comm]

theorem mapM_eq_ok {ε β : Type} {f : β → Except ε α} {l : List β} {l' : List α} :
    l.mapM f = .ok l' ↔ List.Forall₂ (fun b a => f b = .ok a) l l' := by
  induction l generalizing l' with
  | nil => cases l' <;> simp [pure, Except.pure]
  | cons b l ih =>
    rw [List.mapM_cons, List.forall₂_cons_left_iff]
    constructor
    · intro h
      obtain ⟨a, ha, h⟩ := Except.bind_eq_ok.1 h
      obtain ⟨as, has, h⟩ := Except.bind_eq_ok.1 h
      cases h
      exact ⟨a, as, ha, ih.1 has, rfl⟩
    · rintro ⟨a, as, ha, has, rfl⟩
      exact Except.bind_eq_ok.2 ⟨a, ha, Except.bind_eq_ok.2 ⟨as, ih.2 has, rfl⟩⟩

theorem list_eq_ok {l : List α} :
    list read v = .ok l ↔
      ∃ items, v = .array items ∧ List.Forall₂ (fun item a => read item = .ok a) items l := by
  cases v <;> simp [list, mapM_eq_ok]

theorem list_map {write : α → Json} (h : ∀ a, read (write a) = .ok a) (l : List α) :
    list read (.array (l.map write)) = .ok l := by
  refine list_eq_ok.2 ⟨_, rfl, List.forall₂_map_left_iff.2 ?_⟩
  exact List.forall₂_same.2 fun a _ => h a

theorem uint32_eq_ok {n : UInt32} : uint32 v = .ok n ↔ v = .ofNat n.toNat := by
  constructor
  · intro h
    unfold uint32 at h
    split at h
    · split at h
      next hn =>
        cases h
        rw [UInt32.toNat_ofNat_of_lt' hn]
        rfl
      · cases h
    · cases h
  · rintro rfl
    have hread : uint32 (.ofNat n.toNat) =
        if n.toNat < UInt32.size then .ok (.ofNat n.toNat) else .error .malformed := rfl
    rw [hread, if_pos n.toNat_lt_size, UInt32.ofNat_toNat]

/-- A name, alone or with a null beside it, is read as what it is the name of. -/
theorem choice_eq_ok {all : List α} {label : α → String}
    (h : ∀ a, all.find? (label · == label a) = some a) :
    choice all label v = .ok a ↔ v = .string (label a) ∨ v = .object [(label a, .null)] := by
  have hfind : ∀ name, all.find? (label · == name) = some a ↔ name = label a := by
    intro name
    constructor
    · intro hname
      have hlabel := List.find?_some hname
      exact (beq_iff_eq.1 hlabel).symm
    · rintro rfl
      exact h a
  unfold choice
  split
  next name hv =>
    have hname := hfind name
    cases hfound : all.find? (label · == name) <;>
    · rw [hfound] at hname
      simpa [Json.variant?_eq_bare.1 hv] using hname
  next name hv =>
    have hname := hfind name
    cases hfound : all.find? (label · == name) <;>
    · rw [hfound] at hname
      simpa [Json.variant?_eq_full.1 hv] using hname
  next hbare hfull =>
    simp only [reduceCtorEq, false_iff, not_or]
    constructor
    · rintro rfl
      exact hbare _ rfl
    · rintro rfl
      exact hfull _ rfl

end Decoder

theorem Scalar.find?_label (s : Scalar) : all.find? (label · == s.label) = some s := by
  cases s <;> decide

theorem Capability.find?_label (c : Capability) : all.find? (label · == c.label) = some c := by
  cases c <;> decide

theorem Builtin.find?_label (v : Builtin) : all.find? (label · == v.label) = some v := by
  cases v <;> decide

open Decoder

/-! ### Types -/

namespace Ty

variable {v : Json} {s : Scalar} {n : Nat} {t : Ty}

/-- The kinds and numbers of channels that the language has: scalars and vectors of all kinds, and
matrices of the two real ones. -/
def Supported (s : Scalar) (n : Nat) : Prop :=
  1 ≤ n ∧ n ≤ 4 ∨ (n = 9 ∨ n = 16) ∧ (s = .float ∨ s = .double)

/-- The value asks for a type: a kind, by its name or with a null beside it, and a number of
channels. -/
structure Asked (v : Json) (s : Scalar) (n : Nat) : Prop where
  /-- It has the form of a record. -/
  isRecord : v.isRecord 2 = true
  /-- The kind is named. -/
  kind : v.field? 0 "kind" = some (.string s.label) ∨
    v.field? 0 "kind" = some (.object [(s.label, .null)])
  /-- The number of channels is a plain number. -/
  channels : v.field? 1 "channels" = some (.ofNat n)
  /-- That number is a word. -/
  channels_lt : n < UInt32.size

theorem supported (t : Ty) : Supported t.scalar t.channels := by
  have hall : ∀ t ∈ Ty.all, 1 ≤ t.channels ∧ t.channels ≤ 4 ∨
      (t.channels = 9 ∨ t.channels = 16) ∧ (t.scalar = .float ∨ t.scalar = .double) := by decide
  exact hall t t.mem_all

theorem new_eq_ok : new s n = .ok t ↔ t.scalar = s ∧ t.channels = n := by
  constructor
  · intro h
    unfold new at h
    split at h
    next t' ht =>
      cases h
      exact ⟨scalar_of_ofChannels? _ ht, channels_of_ofChannels? _ ht⟩
    · cases h
  · rintro ⟨rfl, rfl⟩
    exact new_channels t

theorem decode_eq_ok : decode v = .ok t ↔ Asked v t.scalar t.channels := by
  constructor
  · intro h
    obtain ⟨hrecord, h⟩ := record_eq_ok.1 h
    obtain ⟨s, hs, h⟩ := Except.bind_eq_ok.1 h
    obtain ⟨n, hn, h⟩ := Except.bind_eq_ok.1 h
    obtain ⟨kind, hkind, hs⟩ := required_eq_ok.1 hs
    obtain ⟨channels, hchannels, hn⟩ := required_eq_ok.1 hn
    rw [choice_eq_ok Scalar.find?_label] at hs
    rw [uint32_eq_ok] at hn
    have hnew : new s n.toNat = .ok t := by
      cases hnew : new s n.toNat <;> rw [hnew] at h <;> cases h
      rfl
    obtain ⟨rfl, hcount⟩ := new_eq_ok.1 hnew
    rw [hcount]
    refine ⟨hrecord, ?_, hn ▸ hchannels, n.toNat_lt_size⟩
    rcases hs with rfl | rfl
    · exact .inl hkind
    · exact .inr hkind
  · rintro ⟨hrecord, hkind, hchannels, hlt⟩
    refine record_eq_ok.2 ⟨hrecord, Except.bind_eq_ok.2 ⟨t.scalar, ?_, Except.bind_eq_ok.2
      ⟨.ofNat t.channels, ?_, ?_⟩⟩⟩
    · rcases hkind with hkind | hkind
      · exact required_eq_ok.2 ⟨_, hkind, (choice_eq_ok Scalar.find?_label).2 (.inl rfl)⟩
      · exact required_eq_ok.2 ⟨_, hkind, (choice_eq_ok Scalar.find?_label).2 (.inr rfl)⟩
    · refine required_eq_ok.2 ⟨_, hchannels, uint32_eq_ok.2 ?_⟩
      rw [UInt32.toNat_ofNat_of_lt' hlt]
    · rw [UInt32.toNat_ofNat_of_lt' hlt, new_channels]

theorem decode_encode (t : Ty) : decode t.encode = .ok t := by
  refine decode_eq_ok.2 ⟨rfl, .inl rfl, rfl, ?_⟩
  exact Nat.lt_of_le_of_lt t.channels_le (by decide)

theorem Asked.unique {s' : Scalar} {n' : Nat} (h : Asked v s n) (h' : Asked v s' n') :
    s = s' ∧ n = n' := by
  have hlabel : s.label = s'.label := by
    rcases h.kind with hs | hs <;> rcases h'.kind with hs' | hs' <;>
      simpa using hs.symm.trans hs'
  have hscalar : s = s' := by
    have hs := Scalar.find?_label s
    rw [hlabel, Scalar.find?_label] at hs
    exact (Option.some.inj hs).symm
  have hchannels := h.channels.symm.trans h'.channels
  simp only [Json.ofNat, Option.some.injEq, Json.number.injEq, Int.natCast_inj, and_true]
    at hchannels
  exact ⟨hscalar, hchannels⟩

end Ty

/-! ### What is written is read back -/

theorem Field.decode_encode (f : Field) : decode f.encode = .ok f :=
  record_eq_ok.2 ⟨rfl, Except.bind_eq_ok.2 ⟨f.name, rfl,
    Except.bind_eq_ok.2 ⟨f.ty, f.ty.decode_encode, rfl⟩⟩⟩

theorem Field.decode_encodeList (fields : List Field) :
    Decoder.list decode (encodeList fields) = .ok fields :=
  list_map decode_encode fields

theorem BindingContent.decode_encode (c : BindingContent) : decode c.encode = .ok c := by
  cases c with
  | uniformBlock block fields =>
    exact Except.bind_eq_ok.2 ⟨fields, Field.decode_encodeList fields, rfl⟩
  | sampledTextures count =>
    exact Except.bind_eq_ok.2 ⟨count, uint32_eq_ok.2 rfl, rfl⟩

theorem Binding.decode_encode (b : Binding) : decode b.encode = .ok b :=
  record_eq_ok.2 ⟨rfl, Except.bind_eq_ok.2 ⟨b.set, uint32_eq_ok.2 rfl,
    Except.bind_eq_ok.2 ⟨b.name, rfl, Except.bind_eq_ok.2 ⟨b.ty, b.ty.decode_encode, rfl⟩⟩⟩⟩

theorem Descriptor.decode_encode (d : Descriptor) : decode d.encode = .ok d := by
  cases d with
  | binding b => exact Except.bind_eq_ok.2 ⟨b, b.decode_encode, rfl⟩
  | inputBlock name fields =>
    exact Except.bind_eq_ok.2 ⟨fields, Field.decode_encodeList fields, rfl⟩

theorem Provision.decode_encode (p : Provision) : decode p.encode = .ok p :=
  record_eq_ok.2 ⟨rfl, Except.bind_eq_ok.2 ⟨p.descriptor, p.descriptor.decode_encode,
    Except.bind_eq_ok.2 ⟨p.capabilities,
      list_map (fun _ => (choice_eq_ok Capability.find?_label).2 (.inl rfl)) p.capabilities,
      rfl⟩⟩⟩

namespace Description

theorem decodeAccessor_encodeAccessor (a : Builtin × String) :
    decodeAccessor (encodeAccessor a) = .ok a :=
  record_eq_ok.2 ⟨rfl, Except.bind_eq_ok.2
    ⟨a.1, (choice_eq_ok Builtin.find?_label).2 (.inl rfl),
      Except.bind_eq_ok.2 ⟨a.2, rfl, rfl⟩⟩⟩

theorem decode_encode (d : Description) : decode d.encode = .ok d :=
  record_eq_ok.2 ⟨rfl, Except.bind_eq_ok.2
    ⟨d.provisions, list_map Provision.decode_encode d.provisions, Except.bind_eq_ok.2
      ⟨d.accessors, list_map decodeAccessor_encodeAccessor d.accessors, rfl⟩⟩⟩

end Description

/-! ### The types of fields -/

/-- The items of a field that holds a list. -/
def Json.items : Option Json → List Json
  | some (array items) => items
  | _ => []

/-- What is read as the type of a field. -/
def Field.typesIn (v : Json) : List Json := (v.field? 1 "ty").toList

/-- What is read as the types of the fields of a uniform block. -/
def BindingContent.typesIn (v : Json) : List Json :=
  match v.variant? with
  | some ("UniformBlock", some (.object fields)) =>
    (Json.items (fields.lookup "fields")).flatMap Field.typesIn
  | _ => []

/-- What is read as the types of fields within a binding. -/
def Binding.typesIn (v : Json) : List Json :=
  (v.field? 2 "ty").toList.flatMap BindingContent.typesIn

/-- What is read as the types of fields within a resource. -/
def Descriptor.typesIn (v : Json) : List Json :=
  match v.variant? with
  | some ("Binding", some content) => Binding.typesIn content
  | some ("InputBlock", some (.object fields)) =>
    (Json.items (fields.lookup "fields")).flatMap Field.typesIn
  | _ => []

/-- What is read as the types of fields within a resource with its capabilities. -/
def Provision.typesIn (v : Json) : List Json :=
  (v.field? 0 "resource").toList.flatMap Descriptor.typesIn

/-- What is read as the types of fields within a description. -/
def Description.typesIn (v : Json) : List Json :=
  (Json.items (v.field? 0 "resources")).flatMap Provision.typesIn

/-- The types of the fields of a block. -/
def BindingContent.types : BindingContent → List Ty
  | uniformBlock _ fields => fields.map (·.ty)
  | sampledTextures _ => []

/-- The types of the fields of a resource. -/
def Descriptor.types : Descriptor → List Ty
  | binding b => b.ty.types
  | inputBlock _ fields => fields.map (·.ty)

/-- The types of all fields. -/
def Description.types (d : Description) : List Ty := d.provisions.flatMap (·.descriptor.types)

/-- Each value asks for the type beside it. -/
def AskFor (values : List Json) (types : List Ty) : Prop :=
  List.Forall₂ (fun v t => Ty.Asked v t.scalar t.channels) values types

section Types

variable {v : Json}

theorem Field.types_of_decode {f : Field} (h : decode v = .ok f) :
    AskFor (typesIn v) [f.ty] := by
  obtain ⟨-, h⟩ := record_eq_ok.1 h
  obtain ⟨name, -, h⟩ := Except.bind_eq_ok.1 h
  obtain ⟨ty, hty, h⟩ := Except.bind_eq_ok.1 h
  cases h
  obtain ⟨asked, hasked, hty⟩ := required_eq_ok.1 hty
  rw [typesIn, hasked]
  exact .cons (Ty.decode_eq_ok.1 hty) .nil

theorem types_of_list {α : Type} {read : Decoder α} {typesIn : Json → List Json}
    {types : α → List Ty} (h : ∀ {v a}, read v = .ok a → AskFor (typesIn v) (types a))
    {field : Option Json} {l : List α} (hread : Decoder.required (.list read) field = .ok l) :
    AskFor ((Json.items field).flatMap typesIn) (l.flatMap types) := by
  obtain ⟨v, rfl, hread⟩ := required_eq_ok.1 hread
  obtain ⟨items, rfl, hitems⟩ := list_eq_ok.1 hread
  exact List.rel_flatMap hitems fun _ _ => h

theorem types_of_fields {field : Option Json} {fields : List Field}
    (h : Decoder.required (.list Field.decode) field = .ok fields) :
    AskFor ((Json.items field).flatMap Field.typesIn) (fields.map (·.ty)) := by
  rw [← List.flatMap_pure_eq_map]
  exact types_of_list Field.types_of_decode h

theorem BindingContent.types_of_decode {c : BindingContent} (h : decode v = .ok c) :
    AskFor (typesIn v) c.types := by
  unfold decode at h
  split at h
  next fields hv =>
    obtain ⟨block, -, h⟩ := Except.bind_eq_ok.1 h
    obtain ⟨fields, hfields, h⟩ := Except.bind_eq_ok.1 h
    cases h
    simp only [typesIn, hv]
    exact types_of_fields hfields
  next fields hv =>
    obtain ⟨count, -, h⟩ := Except.bind_eq_ok.1 h
    cases h
    simp only [typesIn, hv]
    exact .nil
  · cases h

theorem Binding.types_of_decode {b : Binding} (h : decode v = .ok b) :
    AskFor (typesIn v) b.ty.types := by
  obtain ⟨-, h⟩ := record_eq_ok.1 h
  obtain ⟨set, -, h⟩ := Except.bind_eq_ok.1 h
  obtain ⟨name, -, h⟩ := Except.bind_eq_ok.1 h
  obtain ⟨content, hcontent, h⟩ := Except.bind_eq_ok.1 h
  cases h
  obtain ⟨v', hv', hcontent⟩ := required_eq_ok.1 hcontent
  simpa [typesIn, hv'] using BindingContent.types_of_decode hcontent

theorem Descriptor.types_of_decode {d : Descriptor} (h : decode v = .ok d) :
    AskFor (typesIn v) d.types := by
  unfold decode at h
  split at h
  next content hv =>
    obtain ⟨b, hb, h⟩ := Except.bind_eq_ok.1 h
    cases h
    simp only [typesIn, hv]
    exact Binding.types_of_decode hb
  next fields hv =>
    obtain ⟨name, -, h⟩ := Except.bind_eq_ok.1 h
    obtain ⟨fields, hfields, h⟩ := Except.bind_eq_ok.1 h
    cases h
    simp only [typesIn, hv]
    exact types_of_fields hfields
  · cases h

theorem Provision.types_of_decode {p : Provision} (h : decode v = .ok p) :
    AskFor (typesIn v) p.descriptor.types := by
  obtain ⟨-, h⟩ := record_eq_ok.1 h
  obtain ⟨descriptor, hdescriptor, h⟩ := Except.bind_eq_ok.1 h
  obtain ⟨capabilities, -, h⟩ := Except.bind_eq_ok.1 h
  cases h
  obtain ⟨v', hv', hdescriptor⟩ := required_eq_ok.1 hdescriptor
  simpa [typesIn, hv'] using Descriptor.types_of_decode hdescriptor

/-- The types of a description are those asked for in the value that it is read from. -/
theorem Description.types_of_decode {d : Description} (h : decode v = .ok d) :
    AskFor (typesIn v) d.types := by
  obtain ⟨-, h⟩ := record_eq_ok.1 h
  obtain ⟨provisions, hprovisions, h⟩ := Except.bind_eq_ok.1 h
  obtain ⟨accessors, -, h⟩ := Except.bind_eq_ok.1 h
  cases h
  unfold typesIn types
  rcases optional_eq_ok.1 hprovisions with ⟨hnone, rfl⟩ | ⟨v', hv', hprovisions⟩
  · rw [hnone]
    exact .nil
  · exact types_of_list Provision.types_of_decode (required_eq_ok.2 ⟨v', hv', hprovisions⟩)

end Types

namespace Description

/-- **Descriptions survive the exchange.** What is written is read back as it was. Whatever value a
description is read from, writing and reading it once more gives it again, and its types are those
that the value asks for, all of which the language has. A value in which some field asks for a type
that the language does not have is never read. -/
theorem exchange_round_trips :
    (∀ d : Description, decode d.encode = .ok d) ∧
    (∀ v d, decode v = .ok d → decode d.encode = .ok d ∧ AskFor (typesIn v) d.types ∧
      ∀ t ∈ d.types, Ty.Supported t.scalar t.channels) ∧
    ∀ v asked s n, asked ∈ typesIn v → Ty.Asked asked s n → ¬ Ty.Supported s n →
      ∀ d, decode v ≠ .ok d := by
  refine ⟨decode_encode, fun v d h => ?_, fun v asked s n hmem hasked hnot d h => ?_⟩
  · exact ⟨d.decode_encode, types_of_decode h, fun t _ => t.supported⟩
  · obtain ⟨t, -, ht⟩ := exists_left_of_forall₂ (types_of_decode h).flip hmem
    obtain ⟨rfl, rfl⟩ := hasked.unique ht
    exact hnot t.supported

/-! ### A sample -/

namespace Terse

/-- An input block with one field, whose type is given as an array. -/
def value (kind : String) (channels : Nat) : Json :=
  .array [.array [.array [.object [("InputBlock", .object
    [("name", .string "vertex"), ("rate", .null),
      ("fields", .array [.array [.string "inModel",
        .array [.object [(kind, .null)], .ofNat channels]]])])]]]]

/-- What is read from it. -/
def description : Description :=
  ⟨[⟨.inputBlock "vertex" [⟨"inModel", .mat4⟩], []⟩], []⟩

theorem asked (s : Scalar) : Ty.Asked (.array [.object [(s.label, .null)], .ofNat 16]) s 16 :=
  ⟨rfl, .inr rfl, rfl, by decide⟩

end Terse

/-- Records that are arrays, a field that is not known and lists that are left out are all read,
but no matrix of integers is. -/
theorem exchange_round_trips_terse :
    decode (Terse.value "Float" 16) = .ok Terse.description ∧
      decode Terse.description.encode = .ok Terse.description ∧
      ∀ d, decode (Terse.value "Int" 16) ≠ .ok d := by
  obtain ⟨-, hread, hnever⟩ := exchange_round_trips
  have hdecode : decode (Terse.value "Float" 16) = .ok Terse.description := rfl
  refine ⟨hdecode, (hread _ _ hdecode).1, ?_⟩
  exact hnever _ _ .int 16 List.mem_cons_self (Terse.asked .int) (by simp [Ty.Supported])

end Description

end ShaderFlow
