import HostCatch.Proofs.Success
import HostCatch.Proofs.Wire.Passes
import HostCatch.Proofs.Wire.Segments
import HostCatch.Wire.Module.Codec

namespace HostCatch

open List

namespace Wire

/-- A function type with all its value types in full. -/
def FuncType.full (t : FuncType) : FuncType :=
  { t with
    extParams := if t.extParams = [] then t.params.map .plain else t.extParams
    extResults := if t.extResults = [] then t.results.map .plain else t.extResults }

/-- Written, the function type can be read in full, as long as the format can say how long it is. -/
def FuncType.Coded (t : FuncType) : Prop :=
  (funcType t).length < 2 ^ 32 → Reader.Spells Reader.funcType (funcType t) t.full

end Wire

namespace Reader

open Wire

variable {α β : Type} {p : Reader α} {c c' : Cursor} {types : List FuncType}

theorem plainTypes_spells (h : ∀ t ∈ types, Spells funcType (Wire.funcType t) t.full) :
    Spells (times plainType types.length)
      (types.flatMap fun t => Form.func :: Wire.funcType t) (types.map FuncType.full) := by
  induction types with
  | nil => exact .done []
  | cons t types ih =>
    simp only [flatMap_cons]
    have hfirst : Spells plainType (Form.func :: Wire.funcType t) t.full := by
      refine Spells.bind (v := [Form.func]) (.byte Form.func) ?_
      rw [if_pos rfl]
      exact h t (by simp)
    exact hfirst.bind (ih fun t ht => h t (by simp [ht])).bind_pure

theorem typeSection_spells (h : ∀ t ∈ types, Spells funcType (Wire.funcType t) t.full)
    (hlength : types.length < 2 ^ 32) (m : Module) :
    Spells (typeSection m)
      (Wire.size types.length ++ types.flatMap fun t => Form.func :: Wire.funcType t)
      { m with types := types.map FuncType.full } := by
  refine (u32_spells _).bind ?_
  rw [toNat_ofNat_size hlength]
  intro rest pos
  have htypes := plainTypes_spells h rest pos
  have hlook := anyComposite_eq_false_iff.mpr ⟨_, htypes⟩
  exact (bind_of_eq_ok hlook _).trans (bind_of_eq_ok htypes _)

theorem within_run {data : Bytes} {a : α} (name : String) (h : p.run data = .ok a) :
    (within name p).run data = .ok a := by
  unfold run at h ⊢
  unfold within
  split at h
  next hp =>
    cases h
    simp only
  next => cases h

/-- Behind sections up to the place `r` the bytes `w` are sections up to the place `r'`, which take
the module from `m` to `m'`. -/
def Extends (m : Module) (r : Nat) (w : Bytes) (m' : Module) (r' : Nat) : Prop :=
  ∀ last rest pos bound, last ≤ r → w.length + rest.length ≤ bound →
    ∃ last' bound', last' ≤ r' ∧ rest.length ≤ bound' ∧
      sections bound last m ⟨w ++ rest, pos⟩ = sections bound' last' m' ⟨rest, pos + w.length⟩

namespace Extends

theorem skip (m : Module) {r r' : Nat} (h : r ≤ r') : Extends m r [] m r' := by
  intro last rest pos bound hlast hbound
  exact ⟨last, bound, Nat.le_trans hlast h, by simpa using hbound, rfl⟩

theorem trans {m m' m'' : Module} {r r' r'' : Nat} {v w : Bytes} (hv : Extends m r v m' r')
    (hw : Extends m' r' w m'' r'') : Extends m r (v ++ w) m'' r'' := by
  intro last rest pos bound hlast hbound
  rw [length_append] at hbound
  obtain ⟨last', bound', hlast', hbound', hread⟩ :=
    hv last (w ++ rest) pos bound hlast (by rw [length_append]; omega)
  rw [length_append] at hbound'
  obtain ⟨last'', bound'', hlast'', hbound'', hread'⟩ :=
    hw last' rest (pos + v.length) bound' hlast' hbound'
  refine ⟨last'', bound'', hlast'', hbound'', ?_⟩
  rw [append_assoc, hread, hread', length_append, Nat.add_assoc]

end Extends

variable {w : Bytes}

theorem sectionRank_toByte (s : SectionId) : sectionRank s.toByte = s.rank := by
  cases s <;> rfl

theorem ofByte?_toByte (s : SectionId) : SectionId.ofByte? s.toByte = some s := by
  cases s <;> rfl

theorem toByte_inj {s t : SectionId} (h : s.toByte = t.toByte) : s = t :=
  Option.some.inj ((ofByte?_toByte s).symm.trans (h ▸ ofByte?_toByte t))

/-- A section in its place is handed to the reader of its payload, however its size is spelled. -/
theorem sections_spelled {s : SectionId} {v data : Bytes} {last : Nat} (hv : Spells sectionData v data)
    (hlast : s = .custom ∨ last < s.rank) (m : Module) (bound : Nat) (rest : Bytes) (pos : Nat) :
    sections (bound + 1) last m ⟨s.toByte :: (v ++ rest), pos⟩ =
      (inside data (within s.name (payload m s)) >>=
        sections bound (if s = .custom then last else s.rank)) ⟨rest, pos + 1 + v.length⟩ := by
  have horder : ¬ (s.toByte ≠ SectionId.custom.toByte ∧ s.rank ≤ last) := by
    rintro ⟨hne, hle⟩
    rcases hlast with rfl | hlast
    · exact hne rfl
    · omega
  have hend : atEnd ⟨s.toByte :: (v ++ rest), pos⟩ = .ok false ⟨s.toByte :: (v ++ rest), pos⟩ := rfl
  have hid : byte ⟨s.toByte :: (v ++ rest), pos⟩ = .ok s.toByte ⟨v ++ rest, pos + 1⟩ := rfl
  rw [sections, bind_of_eq_ok hend]
  simp only [Bool.false_eq_true, ↓reduceIte]
  rw [bind_of_eq_ok hid]
  simp only [sectionRank_toByte, if_neg horder]
  rw [bind_of_eq_ok (hv rest (pos + 1))]
  simp only [ofByte?_toByte]

theorem sectionData_spells (hsize : w.length < 2 ^ 32) :
    Spells sectionData (Wire.size w.length ++ w) w := by
  refine ((u32_spells _).locating _).bind ?_
  rw [toNat_ofNat_size hsize]
  exact (Spells.bytes w).locating _

theorem sections_framed {s : SectionId} {last : Nat} (hsize : w.length < 2 ^ 32)
    (hlast : s = .custom ∨ last < s.rank) (m : Module) (bound : Nat) (rest : Bytes) (pos : Nat) :
    sections (bound + 1) last m ⟨framed s w ++ rest, pos⟩ =
      (inside w (within s.name (payload m s)) >>=
        sections bound (if s = .custom then last else s.rank))
        ⟨rest, pos + (framed s w).length⟩ := by
  have hpos : pos + (framed s w).length = pos + 1 + (Wire.size w.length ++ w).length := by
    simp only [framed, length_cons]
    omega
  rw [hpos]
  exact sections_spelled (sectionData_spells hsize) hlast m bound rest pos

theorem framed_extends {m m' : Module} {s : SectionId} {r : Nat} (hsize : w.length < 2 ^ 32)
    (hpayload : (payload m s).run w = .ok m') (hr : s = .custom ∨ r < s.rank) :
    Extends m r (framed s w) m' (if s = .custom then r else s.rank) := by
  intro last rest pos bound hlast hbound
  simp only [framed, length_cons, length_append] at hbound
  obtain ⟨bound, rfl⟩ : ∃ n, bound = n + 1 := ⟨bound - 1, by omega⟩
  refine ⟨if s = .custom then last else s.rank, bound, ?_, by omega, ?_⟩
  · split <;> omega
  · have hinside := inside_spells (within_run s.name hpayload)
    rw [sections_framed hsize (hr.imp_right (Nat.lt_of_le_of_lt hlast))]
    exact bind_of_eq_ok (hinside rest _) _

theorem Spells.run_self {a : α} (h : Spells p w a) : p.run w = .ok a := by
  have hrun := h.run []
  rwa [append_nil] at hrun

theorem run_bind_pure {a : α} (f : α → β) (h : p.run w = .ok a) :
    (p >>= fun a => pure (f a)).run w = .ok (f a) := by
  unfold run at h ⊢
  split at h
  next hp =>
    cases h
    rw [bind_of_eq_ok hp]
    rfl
  next => cases h

theorem sections_end (bound last : Nat) (m : Module) (pos : Nat) :
    sections bound last m ⟨[], pos⟩ = .ok m ⟨[], pos⟩ := by
  cases bound <;> rfl

theorem module_header (w : Bytes) :
    module (.start (Wire.u32le magic ++ (Wire.u32le version ++ w))) =
      sections w.length 0 {} ⟨w, 0 + (Wire.u32le magic).length + (Wire.u32le version).length⟩ := by
  have hmagic := (u32le_spells magic).locating "header" (Wire.u32le version ++ w) 0
  have hversion := (u32le_spells version).locating "header" w (0 + (Wire.u32le magic).length)
  unfold module Cursor.start
  rw [bind_of_eq_ok hmagic]
  simp only [ne_eq, not_true_eq_false, ↓reduceIte]
  rw [bind_of_eq_ok hversion]
  simp only [not_true_eq_false, ↓reduceIte]

theorem Extends.module {m : Module} {r : Nat} (h : Extends {} 0 w m r) :
    module.run (Wire.u32le magic ++ (Wire.u32le version ++ w)) = .ok m := by
  obtain ⟨last, bound, -, -, hread⟩ :=
    h 0 [] (0 + (Wire.u32le magic).length + (Wire.u32le version).length) w.length
      (Nat.le_refl 0) (Nat.le_refl _)
  rw [sections_end, append_nil] at hread
  simp only [run, module_header, hread]

section Parts

variable {m : Module} {r : Nat} {s : SectionId}

/-- A section of entries is read as it is written. -/
theorem entries_extends {write : α → Bytes} {as : List α} (put : Module → List α → Module)
    (hlist : Spelled (list p) (Wire.list write) as) (hsize : (Wire.list write as).length < 2 ^ 32)
    (hempty : put m [] = m) (hs : payload m s = list p >>= fun as => pure (put m as))
    (hcustom : s ≠ .custom) (hr : r < s.rank) :
    Extends m r (entries s write as) (put m as) s.rank := by
  cases as with
  | nil =>
    rw [hempty]
    exact .skip m (Nat.le_of_lt hr)
  | cons a as =>
    have hread : (payload m s).run (Wire.list write (a :: as)) = .ok (put m (a :: as)) :=
      hs ▸ (hlist hsize).bind_pure.run_self
    have hframed := framed_extends hsize hread (.inr hr)
    rwa [if_neg hcustom] at hframed

theorem number_extends {n : Option UInt32} (put : Module → Option UInt32 → Module)
    (hempty : put m none = m) (hs : payload m s = u32 >>= fun n => pure (put m (some n)))
    (hcustom : s ≠ .custom) (hr : r < s.rank) : Extends m r (number s n) (put m n) s.rank := by
  cases n with
  | none =>
    rw [hempty]
    exact .skip m (Nat.le_of_lt hr)
  | some n =>
    have hread : (payload m s).run (Leb128.u32 n) = .ok (put m (some n)) :=
      hs ▸ ((u32_spells n).bind_pure (f := fun n => put m (some n))).run_self
    have hframed := framed_extends (Leb128.u32_length_lt n) hread (.inr hr)
    rwa [if_neg hcustom] at hframed

theorem customs_extends {customs : List Custom}
    (hsize : ∀ c ∈ customs, (Wire.custom c).length < 2 ^ 32) :
    Extends m r (customs.flatMap (framed .custom ∘ Wire.custom))
      { m with customs := m.customs ++ customs } r := by
  induction customs generalizing m with
  | nil =>
    rw [append_nil]
    exact .skip m (Nat.le_refl r)
  | cons c customs ih =>
    have hc := hsize c mem_cons_self
    have hfirst : Extends m r (framed .custom (Wire.custom c))
        { m with customs := m.customs ++ [c] } r :=
      framed_extends hc (run_bind_pure _ (custom_run hc)) (.inl rfl)
    have hrest := hfirst.trans (ih fun d hd => hsize d (mem_cons_of_mem c hd))
    simp only [append_assoc, singleton_append] at hrest
    exact hrest

end Parts

end Reader

namespace Wire

open Reader

variable {types : List FuncType} {w : Bytes} {m : Module}

/-- The parts of a module that programs carry or take over can be told by their bytes. -/
structure Module.Proper (m : Module) : Prop where
  imports : ∀ i ∈ m.imports, i.desc.Proper
  tables : ∀ t ∈ m.tables, t.Proper
  memories : ∀ l ∈ m.memories, l.Proper
  globals : ∀ g ∈ m.globals, g.Proper
  exports : ∀ e ∈ m.exports, ¬ EntityCode.tag < e.kind
  elements : ∀ e ∈ m.elements, e.Proper
  data : ∀ d ∈ m.data, Spells Reader.dataSegment (dataSegment d) d

/-- A module that can be read again from its bytes. -/
structure Module.Coded (m : Module) : Prop extends m.Proper where
  typeDefs : m.typeDefs = m.types.map fun t => .func (some t)
  types : ∀ t ∈ m.types, t.Coded
  code : ∀ b ∈ m.code, ∀ l ∈ b.locals, l.Coded

theorem typeDefs_funcs (types : List FuncType) : typeDefs (types.map fun t => .func (some t)) =
      .ok (types.flatMap fun t => Form.func :: funcType t) := by
  induction types with
  | nil => rfl
  | cons t types ih =>
    rw [map_cons, typeDefs, ih]
    rfl

/-- The bytes of the type section of a module that holds plain function types. -/
def typeBytes (types : List FuncType) : Bytes :=
  if types = [] then []
  else framed .types (size types.length ++ types.flatMap fun t => Form.func :: funcType t)

theorem typeBytes_extends (h : ∀ t ∈ types, t.Coded) (hsize : (typeBytes types).length < 2 ^ 32) :
    Extends {} 0 (typeBytes types) { types := types.map FuncType.full } SectionId.types.rank := by
  unfold typeBytes at hsize ⊢
  split at hsize
  next hnone =>
    rw [if_pos hnone, hnone]
    exact .skip {} (by decide)
  next hsome =>
    rw [if_neg hsome]
    have hcount : types.length ≤ (types.flatMap fun t => Form.func :: funcType t).length :=
      length_le_flatMap (by simp)
    simp only [framed, length_cons, length_append] at hsize
    refine framed_extends (by rw [length_append]; omega) ?_ (.inr (by decide))
    refine (typeSection_spells (fun t ht => h t ht ?_) (by omega) {}).run_self
    have hle := length_le_of_mem (fun t => Form.func :: funcType t) ht
    rw [length_cons] at hle
    omega

/-- A module without the definitions beside its function types, and these in full. -/
def Module.reread (m : Module) : Module :=
  { m with types := m.types.map FuncType.full, typeDefs := [] }

/-- What is written of a module behind its types. -/
def Module.behindTypes (m : Module) : Bytes :=
  entries .imports importEntry m.imports ++ (entries .funcs Leb128.u32 m.funcs ++
    (entries .tables tableType m.tables ++ (entries .memories limits m.memories ++
    (entries .tags tagType m.tags ++ (entries .globals globalEntry m.globals ++
    (entries .exports exportEntry m.exports ++ (number .start m.start ++
    (entries .elements element m.elements ++ (number .dataCount m.dataCount ++
    (entries .code funcBody m.code ++ (entries .data dataSegment m.data ++
    m.customs.flatMap (framed .custom ∘ custom))))))))))))

/-- The type section of a module, left out when there is nothing in it. -/
def Module.typePart (m : Module) : Except Abort Bytes :=
  if m.typeDefs = [] ∧ m.types = [] then .ok [] else framed .types <$> typeSection m

theorem Module.encode_eq_ok_iff : m.encode = .ok w ↔ ∃ types,
    m.typePart = .ok types ∧ w = u32le magic ++ (u32le version ++ (types ++ m.behindTypes)) := by
  unfold Module.encode Module.typePart Module.behindTypes
  simp only [append_assoc]
  split
  next =>
    constructor
    · rintro ⟨⟩
      exact ⟨[], rfl, rfl⟩
    · rintro ⟨_, ⟨⟩, rfl⟩
      rfl
  next =>
    rw [HostCatch.bind_eq_ok_iff]
    constructor
    · rintro ⟨types, htypes, hw⟩
      exact ⟨types, htypes, (HostCatch.pure_eq_ok_iff.mp hw).symm⟩
    · rintro ⟨types, htypes, rfl⟩
      exact ⟨types, htypes, rfl⟩

theorem Module.typePart_funcs (h : m.typeDefs = m.types.map fun t => .func (some t)) :
    m.typePart = .ok (typeBytes m.types) := by
  unfold Module.typePart typeBytes
  by_cases hnone : m.types = []
  · rw [if_pos ⟨by simp [h, hnone], hnone⟩, if_pos hnone]
  · rw [if_neg (fun hboth => hnone hboth.2), if_neg hnone, typeSection, if_neg (by simp [h, hnone]), h,
      typeDefs_funcs, length_map]
    rfl

theorem Module.encode_eq_ok (h : m.typeDefs = m.types.map fun t => .func (some t))
    (hw : m.encode = .ok w) :
    w = u32le magic ++ (u32le version ++ (typeBytes m.types ++ m.behindTypes)) := by
  obtain ⟨types, htypes, rfl⟩ := Module.encode_eq_ok_iff.mp hw
  cases (Module.typePart_funcs h).symm.trans htypes
  rfl

theorem length_le_entries {α : Type} (s : SectionId) {write : α → Bytes} (as : List α)
    (h : ∀ a ∈ as, write a ≠ []) : as.length ≤ (entries s write as).length := by
  cases as with
  | nil => simp
  | cons a as =>
    have hle := length_le_flatMap h
    simp only [entries, framed, Wire.list, length_cons, length_append] at hle ⊢
    omega

theorem length_le_typeBytes (types : List FuncType) : 2 * types.length ≤ (typeBytes types).length := by
  have hle : 2 * types.length ≤ (types.flatMap fun t => Form.func :: funcType t).length := by
    induction types with
    | nil => simp
    | cons t types ih =>
      have hne : funcType t ≠ [] := by
        unfold funcType
        split <;> simp [Wire.list, size]
      have hpos := length_pos_iff.mpr hne
      simp only [flatMap_cons, length_append, length_cons]
      omega
  unfold typeBytes
  split
  next hnone => simp [hnone]
  next =>
    simp only [framed, length_cons, length_append]
    omega

/-- Entries of every kind take bytes of their own, so there are not more of them than bytes. -/
structure Module.Within (m : Module) (bytes : Nat) : Prop where
  types : 2 * m.types.length ≤ bytes
  signatures : ∀ t ∈ m.types, (funcType t).length < bytes
  funcs : m.imports.length + m.funcs.length ≤ bytes
  tables : m.imports.length + m.tables.length ≤ bytes
  tags : m.imports.length + m.tags.length ≤ bytes
  customs : ∀ c ∈ m.customs, c.data.length < bytes

theorem length_lt_typeBytes {t : FuncType} (h : t ∈ types) :
    (funcType t).length < (typeBytes types).length := by
  have hle := length_le_of_mem (fun t => Form.func :: funcType t) h
  rw [typeBytes, if_neg (ne_nil_of_mem h)]
  simp only [framed, length_cons, length_append] at hle ⊢
  omega

theorem importEntry_ne_nil (i : Import) : importEntry i ≠ [] := by
  simp [importEntry, importDesc]

theorem tableType_ne_nil (t : TableType) : tableType t ≠ [] := by
  unfold tableType
  split <;> simp [limits]

theorem Module.within_encode (h : m.typeDefs = m.types.map fun t => .func (some t))
    (hw : m.encode = .ok w) : m.Within w.length := by
  have htypes := length_le_typeBytes m.types
  have hsignatures : ∀ t ∈ m.types, (funcType t).length < (typeBytes m.types).length :=
    fun _ => length_lt_typeBytes
  have himports : m.imports.length ≤ (entries .imports importEntry m.imports).length :=
    length_le_entries _ _ fun i _ => importEntry_ne_nil i
  have hfuncs : m.funcs.length ≤ (entries .funcs Leb128.u32 m.funcs).length :=
    length_le_entries _ _ (by simp)
  have htables : m.tables.length ≤ (entries .tables tableType m.tables).length :=
    length_le_entries _ _ fun t _ => tableType_ne_nil t
  have htags : m.tags.length ≤ (entries .tags tagType m.tags).length :=
    length_le_entries _ _ (by simp [tagType])
  have hcustoms : ∀ c ∈ m.customs,
      c.data.length < (m.customs.flatMap (framed .custom ∘ custom)).length := by
    intro c hc
    have hle := length_le_of_mem (framed .custom ∘ custom) hc
    simp only [Function.comp_apply, framed, custom, length_cons, length_append] at hle
    omega
  have hlength := congrArg List.length (Module.encode_eq_ok h hw)
  simp only [Module.behindTypes, length_append] at hlength
  refine ⟨by omega, fun t ht => ?_, by omega, by omega, by omega, fun c hc => ?_⟩
  · have := hsignatures t ht
    omega
  · have := hcustoms c hc
    omega

/-- The sizes of the sections behind the types can be written. -/
structure Module.Fits (m : Module) : Prop where
  imports : (list importEntry m.imports).length < 2 ^ 32
  funcs : (list Leb128.u32 m.funcs).length < 2 ^ 32
  tables : (list tableType m.tables).length < 2 ^ 32
  memories : (list limits m.memories).length < 2 ^ 32
  tags : (list tagType m.tags).length < 2 ^ 32
  globals : (list globalEntry m.globals).length < 2 ^ 32
  exports : (list exportEntry m.exports).length < 2 ^ 32
  elements : (list element m.elements).length < 2 ^ 32
  code : (list funcBody m.code).length < 2 ^ 32
  data : (list dataSegment m.data).length < 2 ^ 32
  customs : ∀ c ∈ m.customs, (custom c).length < 2 ^ 32

theorem list_nil_length {α : Type} (write : α → Bytes) : (list write []).length < 2 ^ 32 := by
  simp only [list, size, length_append, flatMap_nil, length_nil, Nat.add_zero]
  exact Leb128.u32_length_lt _

theorem Module.fits_of_length (h : m.behindTypes.length < 2 ^ 32) : m.Fits := by
  have hlist {α : Type} {s : SectionId} {write : α → Bytes} {as : List α}
      (hle : (entries s write as).length < 2 ^ 32) : (list write as).length < 2 ^ 32 := by
    cases as with
    | nil => exact list_nil_length write
    | cons a as =>
      simp only [entries, framed, length_cons, length_append] at hle
      omega
  simp only [Module.behindTypes, length_append] at h
  refine ⟨hlist (s := .imports) (by omega), hlist (s := .funcs) (by omega),
    hlist (s := .tables) (by omega), hlist (s := .memories) (by omega),
    hlist (s := .tags) (by omega), hlist (s := .globals) (by omega),
    hlist (s := .exports) (by omega), hlist (s := .elements) (by omega),
    hlist (s := .code) (by omega), hlist (s := .data) (by omega), fun c hc => ?_⟩
  have hle := length_le_of_mem (framed .custom ∘ custom) hc
  simp only [Function.comp_apply, framed, length_cons, length_append] at hle
  omega

/-- The sections behind the types are read as they are written. -/
theorem Module.behindTypes_extends (h : m.Proper) (hfits : m.Fits)
    (hcode : ∀ b ∈ m.code, ∀ l ∈ b.locals, l.Coded) (types : List FuncType)
    (typeDefs : List TypeDef) : Extends { types, typeDefs } SectionId.types.rank m.behindTypes
      { m with types, typeDefs } SectionId.data.rank := by
  refine (entries_extends (fun m imports => { m with imports })
    (list_spelled (fun i hi => importEntry_spelled (h.imports i hi)) nofun)
    hfits.imports rfl rfl (by decide) (by decide)).trans ?_
  refine (entries_extends (fun m funcs => { m with funcs })
    (list_spelled (fun i _ _ => u32_spells i) nofun)
    hfits.funcs rfl rfl (by decide) (by decide)).trans ?_
  refine (entries_extends (fun m tables => { m with tables })
    (list_spelled (fun t ht _ => tableType_spells (h.tables t ht)) nofun)
    hfits.tables rfl rfl (by decide) (by decide)).trans ?_
  refine (entries_extends (fun m memories => { m with memories })
    (list_spelled (fun l hl _ => limits_spells (h.memories l hl)) nofun)
    hfits.memories rfl rfl (by decide) (by decide)).trans ?_
  refine (entries_extends (fun m tags => { m with tags })
    (list_spelled (fun t _ _ => tagType_spells t) nofun)
    hfits.tags rfl rfl (by decide) (by decide)).trans ?_
  refine (entries_extends (fun m globals => { m with globals })
    (list_spelled (fun g hg _ => globalEntry_spells (h.globals g hg)) nofun)
    hfits.globals rfl rfl (by decide) (by decide)).trans ?_
  refine (entries_extends (fun m exports => { m with exports })
    (list_spelled (fun e he => exportEntry_spelled (h.exports e he)) nofun)
    hfits.exports rfl rfl (by decide) (by decide)).trans ?_
  refine (number_extends (fun m start => { m with start }) rfl rfl (by decide) (by decide)).trans ?_
  refine (entries_extends (fun m elements => { m with elements })
    (list_spelled (fun e he _ => (h.elements e he).self) nofun)
    hfits.elements rfl rfl (by decide) (by decide)).trans ?_
  refine (number_extends (fun m dataCount => { m with dataCount })
    rfl rfl (by decide) (by decide)).trans ?_
  refine (entries_extends (fun m code => { m with code })
    (list_spelled (fun b hb => funcBody_spelled (hcode b hb)) nofun)
    hfits.code rfl rfl (by decide) (by decide)).trans ?_
  refine (entries_extends (fun m data => { m with data })
    (list_spelled (fun d hd _ => h.data d hd) nofun)
    hfits.data rfl rfl (by decide) (by decide)).trans ?_
  exact customs_extends hfits.customs

theorem Module.decode_encode (h : m.Coded) (hw : m.encode = .ok w) (hlength : w.length < 2 ^ 32) :
    Module.decode w = .ok m.reread := by
  obtain rfl := Module.encode_eq_ok h.typeDefs hw
  simp only [length_append] at hlength
  have htypes := typeBytes_extends h.types (by omega)
  have hfits := Module.fits_of_length (m := m) (by omega)
  exact (htypes.trans (Module.behindTypes_extends h.toProper hfits h.code _ _)).module

end Wire

namespace Reader

open Wire

variable {α : Type} {m' : Module} {c c' : Cursor} {m : Module}

/-- A type section holds plain function types, or definitions of which one at least is none. -/
theorem typeSection_cases (h : typeSection m c = .ok m' c') : ∃ n d, u32 c = .ok n d ∧
      ((∃ types, times plainType n.toNat d = .ok types c' ∧ m' = { m with types }) ∨
        ∃ typeDefs e, anyComposite n.toNat d = .ok true e ∧
          times typeDef n.toNat d = .ok typeDefs c' ∧
          m' = { m with typeDefs, types := typeDefs.flatMap TypeDef.funcTypes }) := by
  obtain ⟨n, d, hn, h⟩ := of_bind h
  obtain ⟨here, _, ⟨⟩, h⟩ := of_bind h
  obtain ⟨composite, e, hcomposite, h⟩ := of_bind h
  obtain ⟨_, _, ⟨⟩, h⟩ := of_bind h
  refine ⟨n, d, hn, ?_⟩
  split at h
  next hcomp =>
    rw [hcomp] at hcomposite
    obtain ⟨typeDefs, f, hdefs, h⟩ := of_bind h
    cases h
    exact .inr ⟨typeDefs, e, hcomposite, hdefs, rfl⟩
  next =>
    obtain ⟨types, f, htypes, h⟩ := of_bind h
    cases h
    exact .inl ⟨types, htypes, rfl⟩

theorem typeSection_eq_ok (h : typeSection m c = .ok m' c') :
    ∃ types typeDefs, m' = { m with types, typeDefs } := by
  obtain ⟨n, d, -, ⟨types, -, rfl⟩ | ⟨typeDefs, e, -, -, rfl⟩⟩ := typeSection_cases h
  · exact ⟨types, m.typeDefs, rfl⟩
  · exact ⟨_, _, rfl⟩

/-- Each section that is read leaves a proper module. -/
theorem payload_proper (hm : m.Proper) {s : SectionId} : Yields (payload m s) Module.Proper := by
  cases s with
  | types =>
    intro c m' c' h
    obtain ⟨types, typeDefs, rfl⟩ := typeSection_eq_ok h
    exact { hm with }
  | custom | funcs | tags | start | dataCount | code => exact .skip fun _ => .done { hm with }
  | imports =>
    exact (list_yields importEntry_eq_ok).bind fun _ h => .done { hm with imports := h.2 }
  | tables => exact (list_yields tableType_eq_ok).bind fun _ h => .done { hm with tables := h.2 }
  | memories => exact (list_yields limits_eq_ok).bind fun _ h => .done { hm with memories := h.2 }
  | globals => exact (list_yields globalEntry_eq_ok).bind fun _ h => .done { hm with globals := h.2 }
  | exports => exact (list_yields exportEntry_eq_ok).bind fun _ h => .done { hm with exports := h.2 }
  | elements => exact (list_yields element_eq_ok).bind fun _ h => .done { hm with elements := h.2 }
  | data => exact (list_yields dataSegment_eq_ok).bind fun _ h => .done { hm with data := h.2 }

theorem inside_within_eq_ok {p : Reader α} {name : String} {data : Bytes} {a : α}
    (h : inside data (within name p) c = .ok a c') : ∃ d, p (.start data) = .ok a d := by
  obtain ⟨-, d, hp⟩ := inside_eq_ok h
  unfold within at hp
  split at hp
  next hp' =>
    cases hp
    exact ⟨_, hp'⟩
  next => cases hp

theorem sectionData_eq_ok {data : Bytes} (h : sectionData c = .ok data c') :
    data.length < 2 ^ 32 := by
  obtain ⟨n, d, -, h⟩ := of_bind h
  unfold locating at h
  split at h
  next hdata =>
    cases h
    rw [bytes_eq_ok hdata]
    exact n.toNat_lt
  next => cases h

theorem eq_toByte_of_ofByte? {id : UInt8} {s : SectionId} (h : SectionId.ofByte? id = some s) :
    id = s.toByte := by
  have hfound := find?_some h
  exact (of_decide_eq_true hfound).symm

/-- What holds at the start and survives every section that stands in its place holds at the end. -/
theorem sections_induction {motive : Nat → Module → Prop}
    (step : ∀ {last : Nat} {m m' : Module} {s : SectionId} {data : Bytes} {c : Cursor},
      (s = .custom ∨ last < s.rank) → data.length < 2 ^ 32 →
      payload m s (.start data) = .ok m' c → motive last m →
      motive (if s = .custom then last else s.rank) m') {bound last : Nat}
    (h : sections bound last m c = .ok m' c') (hm : motive last m) : ∃ last', motive last' m' := by
  induction bound generalizing last m c with
  | zero => exact ⟨last, (pure_eq_ok_iff.mp h).1 ▸ hm⟩
  | succ bound ih =>
    obtain ⟨atEnd, d, -, h⟩ := of_bind h
    split at h
    next => exact ⟨last, (pure_eq_ok_iff.mp h).1 ▸ hm⟩
    next =>
      obtain ⟨id, d, -, h⟩ := of_bind h
      dsimp only at h
      split at h
      next =>
        obtain ⟨_, _, hthrow, -⟩ := of_bind h
        exact absurd hthrow throw_ne_ok
      next horder =>
        obtain ⟨data, d, hdata, h⟩ := of_bind h
        cases hs : SectionId.ofByte? id with
        | none =>
          rw [hs] at h
          exact absurd h throw_ne_ok
        | some s =>
          rw [hs] at h
          obtain ⟨next, d, hnext, h⟩ := of_bind h
          obtain ⟨e, hnext⟩ := inside_within_eq_ok hnext
          obtain rfl := eq_toByte_of_ofByte? hs
          rw [sectionRank_toByte] at h horder
          refine ih h (step ?_ (sectionData_eq_ok hdata) hnext hm)
          by_cases hcustom : s = .custom
          · exact .inl hcustom
          · refine .inr (Nat.lt_of_not_le fun hle => horder ⟨fun heq => hcustom ?_, hle⟩)
            exact Option.some.inj ((ofByte?_toByte s).symm.trans (heq ▸ ofByte?_toByte .custom))

end Reader

namespace Wire.Module

/-- What every section keeps holds of a module that was read. -/
theorem decode_induction {motive : Nat → Module → Prop} (start : motive 0 {})
    (step : ∀ {last : Nat} {m m' : Module} {s : SectionId} {data : Bytes} {c : Cursor},
      (s = .custom ∨ last < s.rank) → data.length < 2 ^ 32 →
      Reader.payload m s (.start data) = .ok m' c → motive last m →
      motive (if s = .custom then last else s.rank) m')
    {data : Bytes} {m : Module} (h : Module.decode data = .ok m) : ∃ last, motive last m := by
  obtain ⟨c, h⟩ := Reader.run_eq_ok h
  obtain ⟨found, d, -, h⟩ := Reader.of_bind h
  dsimp only at h
  split at h
  next =>
    obtain ⟨_, _, hthrow, -⟩ := Reader.of_bind h
    exact absurd hthrow Reader.throw_ne_ok
  next =>
    obtain ⟨found, d, -, h⟩ := Reader.of_bind h
    by_cases hversion : found = version
    · subst hversion
      exact Reader.sections_induction step h start
    · simp only [ne_eq, hversion, not_false_eq_true, ↓reduceIte] at h
      obtain ⟨_, _, hthrow, -⟩ := Reader.of_bind h
      exact absurd hthrow Reader.throw_ne_ok

/-- A module that was read has parts that can be told by their bytes. -/
theorem decode_proper {data : Bytes} {m : Module} (h : Module.decode data = .ok m) : m.Proper := by
  have hstart : Module.Proper {} := by
    constructor <;> intro _ hmem <;> cases hmem
  obtain ⟨_, hm⟩ := decode_induction (motive := fun _ m => m.Proper) hstart
    (fun _ _ h hm => Reader.payload_proper hm h) h
  exact hm

end Wire.Module

end HostCatch
