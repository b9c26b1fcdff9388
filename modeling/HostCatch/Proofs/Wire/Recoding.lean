import HostCatch.Proofs.Wire.TypeSection

namespace HostCatch

namespace Reader

open Wire

variable {s : SectionId}

theorem localEntry_eq_ok : Yields localEntry LocalEntry.Coded :=
  .skip fun _ => .skip fun _ => extAfter_eq_ok.bind fun _ hext => .done hext

theorem funcBody_eq_ok : Yields funcBody fun b => ∀ l ∈ b.locals, l.Coded := by
  refine .skip fun n => .skip fun data => fun c b c' h => ?_
  obtain ⟨-, f, h⟩ := inside_eq_ok h
  obtain ⟨locals, g, hlocals, h⟩ := of_bind h
  obtain ⟨code, k, -, h⟩ := of_bind h
  cases h
  exact (list_yields localEntry_eq_ok hlocals).2

theorem payload_types {m : Module} (hs : s ≠ .types) :
    Yields (payload m s) fun m' => m'.types = m.types ∧ m'.typeDefs = m.typeDefs := by
  cases s with
  | types => exact absurd rfl hs
  | _ => exact .skip fun _ => .done ⟨rfl, rfl⟩

theorem payload_locals {m : Module} (hm : ∀ b ∈ m.code, ∀ l ∈ b.locals, l.Coded) :
    Yields (payload m s) fun m' => ∀ b ∈ m'.code, ∀ l ∈ b.locals, l.Coded := by
  cases s with
  | types =>
    intro c m' c' h
    obtain ⟨types, typeDefs, rfl⟩ := typeSection_eq_ok h
    exact hm
  | code => exact (list_yields funcBody_eq_ok).bind fun _ h => .done h.2
  | _ => exact .skip fun _ => .done hm

theorem payload_typesRead {last : Nat} {m m' : Module} {data : Bytes} {c : Cursor}
    (horder : s = .custom ∨ last < s.rank) (hdata : data.length < 2 ^ 32)
    (h : payload m s (.start data) = .ok m' c)
    (hm : (last = 0 → m.typeDefs = []) ∧ TypesRead m.types m.typeDefs) :
    ((if s = .custom then last else s.rank) = 0 → m'.typeDefs = []) ∧
      TypesRead m'.types m'.typeDefs := by
  by_cases hs : s = .types
  · subst hs
    have hzero : last = 0 := Nat.lt_one_iff.mp (horder.resolve_left (by decide))
    refine ⟨fun hrank => ?_, typeSection_typesRead (hm.1 hzero) hdata h⟩
    rw [if_neg (by decide)] at hrank
    exact absurd hrank (by decide)
  · obtain ⟨htypes, hdefs⟩ := payload_types hs h
    rw [htypes, hdefs]
    refine ⟨fun hzero => hm.1 ?_, hm.2⟩
    split at hzero
    next => exact hzero
    next hcustom =>
      have hrank := horder.resolve_left hcustom
      omega

/-- Sections that were read have sizes that can be written. -/
theorem payload_fits {m m' : Module} {data : Bytes} {c : Cursor} (hdata : data.length < 2 ^ 32)
    (hm : m.Fits) (h : payload m s (.start data) = .ok m' c) : m'.Fits := by
  have hlist {α : Type} {p : Reader α} {write : α → Bytes} (hp : Shrinks p write)
      {f : List α → Module} (h : (do pure (f (← list p)) : Reader Module) (.start data) = .ok m' c)
      (hf : ∀ as, (Wire.list write as).length < 2 ^ 32 → (f as).Fits) : m'.Fits := by
    obtain ⟨as, d, has, h⟩ := of_bind h
    cases h
    have hle : _ ≤ data.length := list_shrinks hp _ _ _ has
    exact hf as (by omega)
  cases s with
  | types =>
    obtain ⟨types, typeDefs, rfl⟩ := typeSection_eq_ok h
    exact { hm with }
  | start | dataCount =>
    obtain ⟨_, d, -, h⟩ := of_bind h
    cases h
    exact { hm with }
  | custom =>
    obtain ⟨entry, d, hnew, h⟩ := of_bind h
    cases h
    refine { hm with customs := fun c hc => ?_ }
    rcases List.mem_append.mp hc with hc | hc
    · exact hm.customs c hc
    · cases List.mem_singleton.mp hc
      exact Nat.lt_of_le_of_lt (custom_length hnew) hdata
  | imports => exact hlist importEntry_shrinks h fun _ hsize => { hm with imports := hsize }
  | funcs => exact hlist u32_shrinks h fun _ hsize => { hm with funcs := hsize }
  | tables => exact hlist tableType_shrinks h fun _ hsize => { hm with tables := hsize }
  | memories => exact hlist limits_shrinks h fun _ hsize => { hm with memories := hsize }
  | tags => exact hlist tagType_shrinks h fun _ hsize => { hm with tags := hsize }
  | globals => exact hlist globalEntry_shrinks h fun _ hsize => { hm with globals := hsize }
  | exports => exact hlist exportEntry_shrinks h fun _ hsize => { hm with exports := hsize }
  | elements => exact hlist element_shrinks h fun _ hsize => { hm with elements := hsize }
  | code => exact hlist funcBody_shrinks h fun _ hsize => { hm with code := hsize }
  | data => exact hlist dataSegment_shrinks h fun _ hsize => { hm with data := hsize }

end Reader

namespace Wire.Module

open Reader

variable {data : Bytes} {m : Module}

theorem decode_fits (h : Module.decode data = .ok m) : m.Fits := by
  have hstart : Module.Fits {} := by
    constructor
    case customs => nofun
    all_goals exact list_nil_length _
  obtain ⟨_, hm⟩ := decode_induction (motive := fun _ m => m.Fits) hstart
    (fun _ hdata h hm => payload_fits hdata hm h) h
  exact hm

theorem decode_locals (h : Module.decode data = .ok m) : ∀ b ∈ m.code, ∀ l ∈ b.locals, l.Coded := by
  obtain ⟨_, hm⟩ := decode_induction
    (motive := fun _ (m : Module) => ∀ b ∈ m.code, ∀ l ∈ b.locals, l.Coded) nofun
    (fun _ _ h hm => payload_locals hm h) h
  exact hm

theorem decode_typesRead (h : Module.decode data = .ok m) : TypesRead m.types m.typeDefs := by
  obtain ⟨_, -, hm⟩ := decode_induction
    (motive := fun last (m : Module) => (last = 0 → m.typeDefs = []) ∧ TypesRead m.types m.typeDefs)
    ⟨fun _ => rfl, typesRead_nil⟩ payload_typesRead h
  exact hm

theorem typePart_eq {types : List FuncType} {typeDefs : List TypeDef} (h : TypesRead types typeDefs)
    (hrefs : typeDefs ≠ [] ∨ ∀ t ∈ types, t.Plain) :
    ∃ w, Module.typePart { types, typeDefs } = .ok w ∧
      Extends {} 0 w { types, typeDefs := rereadDefs typeDefs } SectionId.types.rank := by
  unfold Module.typePart
  split
  next hnone =>
    obtain ⟨rfl, rfl⟩ : typeDefs = [] ∧ types = [] := hnone
    exact ⟨[], rfl, .skip {} (by decide)⟩
  next =>
    obtain ⟨w, hw, hsize, hread⟩ := h.written hrefs
    exact ⟨framed .types w, by rw [hw]; rfl, framed_extends hsize hread.run_self (.inr (by decide))⟩

/-- A module that was read is written, and what is written is read as the same module up to
definitions that are written as plain function types. -/
theorem decode_again (h : Module.decode data = .ok m)
    (hrefs : m.typeDefs ≠ [] ∨ ∀ t ∈ m.types, t.Plain) :
    ∃ w, m.encode = .ok w ∧ Module.decode w = .ok { m with typeDefs := rereadDefs m.typeDefs } := by
  obtain ⟨types, htypes, hread⟩ := typePart_eq (decode_typesRead h) hrefs
  refine ⟨_, Module.encode_eq_ok_iff.mpr ⟨types, htypes, rfl⟩, ?_⟩
  exact (hread.trans (behindTypes_extends (decode_proper h) (decode_fits h) (decode_locals h) _ _)).module

theorem rereadDefs_eq {typeDefs : List TypeDef}
    (hcomposite : typeDefs ≠ [] → typeDefs.all TypeDef.isPlain = false)
    (hbare : ∀ type, .sub (some ⟨true, [], .func type⟩) ∉ typeDefs) : rereadDefs typeDefs = typeDefs := by
  have hkept : typeDefs.map TypeDef.bare = typeDefs := by
    refine (List.map_congr_left fun t ht => ?_).trans (List.map_id _)
    cases t with
    | sub t =>
      cases t with
      | none => rfl
      | some t =>
        cases hfunc : t.bareFunc? with
        | none => simp only [TypeDef.bare, hfunc, id_eq]
        | some type => exact absurd (SubType.funcType?_of_bareFunc? hfunc ▸ ht) (hbare (some type))
    | func _ => rfl
    | group _ => rfl
    | other => rfl
  rw [rereadDefs, hkept]
  by_cases hnone : typeDefs = []
  · rw [hnone]
    rfl
  · rw [if_neg (by simp [hcomposite hnone])]

/-- Reading, writing and reading again gives the module that was read, unless the heap types of a
section of plain function types are lost or a definition is written as a plain function type. -/
theorem decode_encode_decode (h : Module.decode data = .ok m)
    (hrefs : m.typeDefs ≠ [] ∨ ∀ t ∈ m.types, t.Plain)
    (hbare : ∀ type, .sub (some ⟨true, [], .func type⟩) ∉ m.typeDefs) :
    ∃ w, m.encode = .ok w ∧ Module.decode w = .ok m := by
  obtain ⟨w, hw, hread⟩ := decode_again h hrefs
  rw [rereadDefs_eq (decode_typesRead h).composite hbare] at hread
  exact ⟨w, hw, hread⟩

/-- A group of a structure and a function on it, an imported table, and a body with variables that
refer to the structure, with one size written at length. -/
def structured : Bytes :=
  [0x00, 0x61, 0x73, 0x6D, 0x01, 0x00, 0x00, 0x00,
    0x01, 0x95, 0x00, 0x02, 0x4E, 0x02, 0x50, 0x00, 0x5F, 0x02, 0x78, 0x01, 0x63, 0x00, 0x00,
    0x60, 0x01, 0x64, 0x00, 0x01, 0x7F, 0x60, 0x00, 0x00,
    0x02, 0x0A, 0x01, 0x01, 0x6D, 0x01, 0x74, 0x01, 0x6F, 0x01, 0x00, 0x02,
    0x03, 0x02, 0x01, 0x01,
    0x0A, 0x07, 0x01, 0x05, 0x01, 0x02, 0x63, 0x00, 0x0B,
    0x0B, 0x08, 0x01, 0x02, 0x00, 0x41, 0x00, 0x0B, 0x01, 0xAA,
    0x00, 0x03, 0x01, 0x78, 0xFF]

def structuredModule : Module :=
  let onStruct : FuncType := ⟨[0x64], [0x7F], [.ref 0x64 ⟨false, 0⟩], [.plain 0x7F]⟩
  let plain : FuncType := ⟨[], [], [], []⟩
  { types := [onStruct, plain]
    typeDefs := [.group (some [
        ⟨false, [], .struct (some [⟨.packed 0x78, true⟩, ⟨.ref ⟨true, 0⟩, false⟩])⟩,
        ⟨true, [], .func (some onStruct)⟩]), .func (some plain)]
    imports := [⟨"m", "t", .table (some ⟨0x6F, none, ⟨0, some 2, false, false⟩, []⟩)⟩]
    funcs := [1]
    code := [⟨[⟨2, 0x63, some (.ref 0x63 ⟨true, 0⟩)⟩], [0x0B]⟩]
    data := [⟨2, 0, [0x41, 0x00, 0x0B], [0xAA]⟩]
    customs := [⟨"x", [0xFF]⟩] }

theorem structured_decode_encode_decode : Module.decode structured = .ok structuredModule ∧
    ∃ w, structuredModule.encode = .ok w ∧ Module.decode w = .ok structuredModule := by
  have hread : Module.decode structured = .ok structuredModule := by decide +kernel
  refine ⟨hread, decode_encode_decode hread (.inl nofun) fun type hmem => ?_⟩
  simp [structuredModule] at hmem

end Wire.Module

end HostCatch
