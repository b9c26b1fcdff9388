import HostCatch.Proofs.Wire.Cutting
import HostCatch.Proofs.Wire.TypeSection

namespace HostCatch

open List

namespace Reader

open Wire

variable {α β : Type}

theorem byte_rest {c d : Cursor} {b : UInt8} (h : byte c = .ok b d) : c.rest = b :: d.rest := by
  obtain ⟨rest, pos⟩ := c
  cases rest with
  | nil => cases h
  | cons b rest =>
    cases h
    rfl

namespace Local

variable {p : Reader α} {P : Prop} {f : α → Reader β}

theorem map (f : α → β) (hp : Local p) : Local (f <$> p) := by
  intro c b c' h
  obtain ⟨a, ha, rfl⟩ := map_eq_ok_iff.mp h
  obtain ⟨w, hw, hspells⟩ := hp c a c' ha
  exact ⟨w, hw, hspells.map f⟩

theorem ite [Decidable P] {q : Reader α} (hp : Local p) (hq : Local q) :
    Local (if P then p else q) := by
  split
  next => exact hp
  next => exact hq

theorem branch [Decidable P] {q : Reader α} (hp : Local p) (hq : Local q) (hf : ∀ a, Local (f a)) :
    Local (if P then p >>= f else q >>= f) :=
  (hp.bind hf).ite (hq.bind hf)

theorem refusing [Decidable P] {e : ReadFault} {f : Unit → Reader α} (hf : Local (f ())) :
    Local (if P then throw e >>= f else f ()) :=
  .ite (.bind (.fail e) fun _ => hf) hf

theorem times (hp : Local p) (n : Nat) : Local (times p n) := by
  induction n with
  | zero => exact .done []
  | succ n ih => exact hp.bind fun _ => ih.bind fun _ => .done _

theorem list (hp : Local p) : Local (list p) :=
  u32.bind fun n => hp.times n.toNat

theorem u64 : Local u64 :=
  placingOverflow ((groups _).bind fun _ => .done _)

theorem readS64 : Local Leb128.readS64 :=
  (groups _).bind fun _ => .done _

theorem name : Local name := by
  refine u32.bind fun n => (bytes _).bind fun bs => ?_
  split
  next => exact .done _
  next =>
    intro c s c' h
    cases h

theorem refAfter (code : TypeCode) : Local (refAfter code) :=
  (readS64.bind fun _ => .done _).ite (.done none)

theorem extAfter (code : TypeCode) : Local (extAfter code) :=
  (refAfter code).bind fun _ => .done _

theorem extType : Local extType :=
  byte.bind fun code => (extAfter code).bind fun _ => .done _

theorem funcType : Local funcType :=
  extType.list.bind fun _ => extType.list.bind fun _ => .done _

theorem field : Local field := by
  have hstorage : Local storage := by
    refine byte.bind fun code => .ite (.done _) ((refAfter code).bind fun ref => ?_)
    cases ref with
    | none => exact .done _
    | some type => exact .done _
  exact hstorage.bind fun _ => byte.bind fun _ => .done _

theorem subTypeAfter (form : UInt8) : Local (subTypeAfter form) := by
  have hcomposite : ∀ form otherwise, Local (compositeAfter form otherwise) :=
    fun form otherwise => .ite (funcType.bind fun _ => .done _)
      (.ite (field.list.bind fun _ => .done _) (.ite (field.bind fun _ => .done _) (.fail _)))
  exact .ite (u32.list.bind fun _ => byte.bind fun _ => (hcomposite _ _).bind fun _ => .done _)
    ((hcomposite _ _).bind fun _ => .done _)

theorem plainType : Local plainType :=
  byte.bind fun _ => .ite funcType (.fail _)

theorem typeDef : Local typeDef :=
  byte.bind fun form => .ite (funcType.bind fun _ => .done _)
    (.ite ((byte.bind subTypeAfter).list.bind fun _ => .done _)
      (.ite ((subTypeAfter form).bind fun _ => .done _) (.fail _)))

theorem limits : Local limits := by
  have hbound : ∀ wide : Prop, [Decidable wide] →
      Local (if wide then Reader.u64 else UInt32.toUInt64 <$> Reader.u32) :=
    fun _ _ => .ite u64 (u32.map _)
  refine byte.bind fun flags => (hbound _).bind fun min => ?_
  refine branch ((hbound _).map some) (.done none) fun max => ?_
  cases max with
  | none => exact .done _
  | some most => exact .refusing (.done _)

theorem rawGroups : Local rawGroups := by
  intro c w c' h
  refine ⟨w, ?_, rawGroups_eq_ok h⟩
  unfold Reader.rawGroups at h
  rw [span_eq_takeWhile_dropWhile] at h
  dsimp only at h
  split at h
  next => cases h
  next last rest hrest =>
    cases h
    rw [append_assoc, singleton_append, ← hrest, takeWhile_append_dropWhile]

theorem constImm (op : UInt8) : Local (constImm op) :=
  .ite rawGroups (.ite (bytes 4) (.ite (bytes 8)
    (.ite (u32.bind fun _ => branch (bytes 16) (.done []) fun _ => .done _)
      (.ite (u32.bind fun _ => (rawGroups.times _).bind fun _ => .done _) (.done [])))))

theorem constExprWithin {bound : Nat} {c c' : Cursor} {a : Bytes}
    (h : constExprWithin bound c = .ok a c') : ∃ w, c.rest = w ++ c'.rest ∧
      ∀ bound', w.length ≤ bound' → Spells (constExprWithin bound') w a := by
  induction bound generalizing c a with
  | zero => exact absurd h throw_ne_ok
  | succ bound ih =>
    obtain ⟨op, d, hop, h⟩ := of_bind h
    have hc := byte_rest hop
    split at h
    next hend =>
      cases h
      refine ⟨[op], hc, fun bound' hbound => ?_⟩
      obtain ⟨bound', rfl⟩ := Nat.exists_eq_succ_of_ne_zero (Nat.ne_of_gt hbound)
      refine (Spells.byte op).bind_nil ?_
      rw [if_pos hend]
      exact .done _
    next hend =>
      obtain ⟨imm, e, himm, h⟩ := of_bind h
      obtain ⟨later, f, hlater, h⟩ := of_bind h
      cases h
      obtain ⟨v, hv, hspells⟩ := constImm op d imm e himm
      obtain ⟨w, hw, hread⟩ := ih hlater
      refine ⟨[op] ++ (v ++ w), by rw [hc, hv, hw]; simp, fun bound' hbound => ?_⟩
      simp only [length_append, length_singleton] at hbound
      obtain ⟨bound', rfl⟩ := Nat.exists_eq_succ_of_ne_zero (show bound' ≠ 0 by omega)
      refine (Spells.byte op).bind ?_
      rw [if_neg hend]
      exact hspells.bind (hread bound' (by omega)).bind_pure

theorem constExpr : Local constExpr := by
  intro c a c' h
  obtain ⟨w, hw, hread⟩ := constExprWithin h
  exact ⟨w, hw, fun rest pos => hread _ (by simp) rest pos⟩

theorem tableType : Local tableType := by
  refine byte.bind fun first => .ite ?_ ?_
  · refine byte.bind fun zero => .refusing ?_
    exact byte.bind fun elem => (refAfter elem).bind fun _ => limits.bind fun _ =>
      constExpr.bind fun _ => .done _
  · exact (refAfter first).bind fun _ => limits.bind fun _ => .done _

theorem globalType : Local globalType :=
  byte.bind fun val => (extAfter val).bind fun _ => byte.bind fun _ => .done _

theorem tagType : Local tagType :=
  byte.bind fun _ => u32.bind fun _ => .done _

theorem importDesc (kind : UInt8) : Local (importDesc kind) :=
  .ite (u32.map _) (.ite (tableType.map _) (.ite (limits.map _) (.ite (globalType.map _)
    (.ite (tagType.map _) (.fail _)))))

theorem importEntry : Local importEntry :=
  name.bind fun _ => name.bind fun _ => byte.bind fun kind => (importDesc kind).bind fun _ => .done _

theorem exportEntry : Local exportEntry :=
  name.bind fun _ => byte.bind fun _ => .refusing (u32.bind fun _ => .done _)

theorem globalEntry : Local globalEntry :=
  globalType.bind fun _ => constExpr.bind fun _ => .done _

theorem element : Local element := by
  refine u32.bind fun flags => .refusing ?_
  refine branch u32 (.done 0) fun table => branch constExpr (.done []) fun offset => ?_
  refine branch byte (.done 0) fun elemKind => branch byte (.done 0) fun type => ?_
  refine branch (refAfter type) (.done none) fun ref => u32.bind fun n => ?_
  refine branch (.done []) (u32.times n.toNat) fun funcs => ?_
  exact branch (constExpr.times n.toNat) (.done []) fun exprs => .done _

theorem inside (data : Bytes) (p : Reader α) : Local (inside data p) := by
  intro c a c' h
  obtain ⟨rfl, d, hread⟩ := inside_eq_ok h
  exact ⟨[], rfl, inside_spells (by simp only [run, hread])⟩

theorem funcBody : Local funcBody :=
  u32.bind fun _ => (bytes _).bind fun data => inside data _

theorem dataSegment : Local dataSegment := by
  refine u32.bind fun flags => .refusing ?_
  refine branch u32 (.done 0) fun mem => branch constExpr (.done []) fun offset => ?_
  exact u32.bind fun n => (bytes _).bind fun init => .done _

theorem length_le (hp : Local p) {c c' : Cursor} {a : α} (h : p c = .ok a c') :
    c'.rest.length ≤ c.rest.length := by
  obtain ⟨w, hw, -⟩ := hp c a c' h
  rw [hw, length_append]
  omega

/-- A reader may look ahead, as long as it then reads at least as far. -/
theorem ahead (hp : Local p) (hf : ∀ a, Local (f a))
    (hfar : ∀ {c d c' a b}, p c = .ok a d → f a c = .ok b c' → c'.rest.length ≤ d.rest.length) :
    Local (get >>= fun here => p >>= fun a => set here >>= fun _ => f a) := by
  intro c b c' h
  obtain ⟨here, _, ⟨⟩, h⟩ := of_bind h
  obtain ⟨a, d, ha, h⟩ := of_bind h
  obtain ⟨_, _, ⟨⟩, h⟩ := of_bind h
  obtain ⟨v, hv, hlook⟩ := hp c a d ha
  obtain ⟨w, hw, hread⟩ := hf a c b c' h
  have hprefix : v <+: w := by
    have hlength := hfar ha h
    have hsame := congrArg List.length (hv.symm.trans hw)
    simp only [length_append] at hsame
    exact prefix_of_prefix_length_le ⟨_, hv.symm⟩ ⟨_, hw.symm⟩ (by omega)
  obtain ⟨t, rfl⟩ := hprefix
  refine ⟨v ++ t, hw, fun rest pos => ?_⟩
  refine bind_eq_ok_iff.mpr ⟨_, _, rfl, ?_⟩
  refine bind_eq_ok_iff.mpr ⟨a, ⟨t ++ rest, pos + v.length⟩, ?_, ?_⟩
  · rw [append_assoc]
    exact hlook (t ++ rest) pos
  · exact bind_eq_ok_iff.mpr ⟨(), _, rfl, hread rest pos⟩

theorem anyComposite (n : Nat) : Local (anyComposite n) := by
  have hskip : Local skipTypes :=
    u32.bind fun _ => ((byte.bind fun code => (refAfter code).bind fun _ => .done _).times _).bind
      fun _ => .done _
  induction n with
  | zero => exact .done false
  | succ n ih =>
    exact byte.bind fun form => .ite ((hskip.bind fun _ => hskip).bind fun _ => ih)
      (.ite (.done true) (.fail _))

end Local

variable {n m : Module} {c : Cursor} {s : SectionId} {last : Nat} {w data v : Bytes}

theorem anyComposite_far {n : Nat} {d c' : Cursor} {found : Bool} {defs : List TypeDef}
    (h : anyComposite n c = .ok found d) (hdefs : times typeDef n c = .ok defs c') :
    c'.rest.length ≤ d.rest.length := by
  induction n generalizing c defs with
  | zero =>
    cases h
    cases hdefs
    exact Nat.le_refl _
  | succ n ih =>
    obtain ⟨first, f, hfirst, hdefs⟩ := of_bind hdefs
    obtain ⟨later, g, hlater, hdefs⟩ := of_bind hdefs
    cases hdefs
    obtain h | ⟨-, form, hform⟩ := anyComposite_typeDef h hfirst
    · exact ih h hlater
    · -- The first definition takes its form at least.
      obtain ⟨w, hw, hspells⟩ := Local.typeDef c first f hfirst
      have hne : w ≠ [] := by
        rintro rfl
        cases hspells [] 0
      have hpos := length_pos_of_ne_nil hne
      have hlength := (Local.typeDef.times n).length_le hlater
      have hrest := congrArg List.length (hw.symm.trans (byte_rest hform))
      simp only [length_append, length_cons] at hrest
      omega

theorem typeSection_local (m : Module) : Local (typeSection m) := by
  refine Local.u32.bind fun n => .ahead (.anyComposite _) (fun found => ?_) ?_
  · exact .ite ((Local.typeDef.times _).bind fun _ => .done _)
      ((Local.plainType.times _).bind fun _ => .done _)
  · intro c d c' found b hlook h
    split at h
    next =>
      obtain ⟨defs, e, hdefs, h⟩ := of_bind h
      cases h
      exact anyComposite_far hlook hdefs
    next =>
      obtain ⟨types, e, htypes, h⟩ := of_bind h
      cases h
      exact anyComposite_far hlook (typeDefs_of_plainTypes htypes)

/-- A section is read from its own bytes. -/
theorem payload_local (hs : s ≠ .custom) (m : Module) : Local (payload m s) := by
  cases s with
  | custom => exact absurd rfl hs
  | types => exact typeSection_local m
  | imports => exact Local.importEntry.list.bind fun _ => .done _
  | funcs => exact Local.u32.list.bind fun _ => .done _
  | tables => exact Local.tableType.list.bind fun _ => .done _
  | memories => exact Local.limits.list.bind fun _ => .done _
  | tags => exact Local.tagType.list.bind fun _ => .done _
  | globals => exact Local.globalEntry.list.bind fun _ => .done _
  | exports => exact Local.exportEntry.list.bind fun _ => .done _
  | start => exact Local.u32.bind fun _ => .done _
  | elements => exact Local.element.list.bind fun _ => .done _
  | dataCount => exact Local.u32.bind fun _ => .done _
  | code => exact Local.funcBody.list.bind fun _ => .done _
  | data => exact Local.dataSegment.list.bind fun _ => .done _

/-- Bytes that are read one after the other as whole sections, each in its place after the one of
rank `last`, and take the module from `m` to `n`. -/
inductive Reads : Nat → Module → Bytes → Module → Prop
  | done {last : Nat} {m : Module} : Reads last m [] m
  | step {last : Nat} {m next n : Module} {s : SectionId} {v data rest : Bytes} :
      Spells sectionData v data → s = .custom ∨ last < s.rank → (payload m s).run data = .ok next →
      Reads (if s = .custom then last else s.rank) next rest n →
      Reads last m (s.toByte :: (v ++ rest)) n

theorem Reads.of_sections {bound pos : Nat} (h : sections bound last m ⟨w, pos⟩ = .ok n c)
    (hbound : w.length ≤ bound) : Reads last m w n := by
  induction bound generalizing last pos m w with
  | zero =>
    obtain rfl := eq_nil_of_length_eq_zero (Nat.le_zero.mp hbound)
    cases h
    exact .done
  | succ bound ih =>
    cases w with
    | nil =>
      rw [sections_end] at h
      cases h
      exact .done
    | cons id w =>
      obtain ⟨s, v, data, rest, next, rfl, rfl, hv, hlast, hnext, h⟩ := sections_cons_eq_ok h
      simp only [length_cons, length_append] at hbound
      exact .step hv hlast hnext (ih h (by omega))

theorem Reads.sections (h : Reads last m w n) {bound : Nat} (hbound : w.length ≤ bound) (pos : Nat) :
    ∃ c, sections bound last m ⟨w, pos⟩ = .ok n c := by
  induction h generalizing bound pos with
  | done => exact ⟨_, sections_end _ _ _ _⟩
  | @step last m next n s v data rest hv hlast hnext _ ih =>
    simp only [length_cons, length_append] at hbound
    obtain ⟨bound, rfl⟩ : ∃ k, bound = k + 1 := ⟨bound - 1, by omega⟩
    obtain ⟨c, hread⟩ := ih (show rest.length ≤ bound by omega) (pos + 1 + v.length)
    rw [sections_spelled hv hlast]
    exact ⟨c, (bind_of_eq_ok (inside_spells (within_run s.name hnext) _ _) _).trans hread⟩

theorem decode_eq_ok (h : Module.decode data = .ok m) :
    ∃ header w, data = header ++ w ∧ header.length = 8 ∧
      ∀ w n, Module.decode (header ++ w) = .ok n ↔ Reads 0 {} w n := by
  obtain ⟨c, h⟩ := run_eq_ok h
  obtain ⟨header, w, rfl, hlength, hheader⟩ := module_eq_ok h
  refine ⟨header, w, rfl, hlength, fun w n => ⟨fun hn => ?_, fun hn => ?_⟩⟩
  · obtain ⟨d, hn⟩ := run_eq_ok hn
    rw [hheader] at hn
    exact .of_sections hn (Nat.le_refl _)
  · obtain ⟨d, hread⟩ := hn.sections (Nat.le_refl _) header.length
    simp only [Module.decode, run, hheader, hread]

theorem Spells.split {p : Reader α} {r t : Bytes} {a b : α} (hv : Spells p v a) (hw : Spells p w b)
    (h : v ++ r = w ++ t) : v = w ∧ a = b ∧ r = t := by
  have hread := hv r 0
  rw [h, hw t 0] at hread
  injection hread with hab hcursor
  injection hcursor with hrest
  exact ⟨append_cancel_right (hrest ▸ h), hab.symm, hrest.symm⟩

theorem Reads.of_cons {rest : Bytes} (h : Reads last m (s.toByte :: (v ++ rest)) n)
    (hv : Spells sectionData v data) :
    (s = .custom ∨ last < s.rank) ∧ ∃ next, (payload m s).run data = .ok next ∧
      Reads (if s = .custom then last else s.rank) next rest n := by
  generalize hw : s.toByte :: (v ++ rest) = w at h
  cases h with
  | done => cases hw
  | step hv' hlast hnext hrest =>
    obtain ⟨hid, htail⟩ := List.cons.inj hw
    obtain rfl := toByte_inj hid
    obtain ⟨rfl, rfl, rfl⟩ := hv.split hv' htail
    exact ⟨hlast, _, hnext, hrest⟩

/-- Whole sections one after the other: each an id, a size in some spelling and as many bytes. -/
inductive Sectioned : Bytes → Prop
  | nil : Sectioned []
  | cons {v data rest : Bytes} (s : SectionId) : Spells sectionData v data → Sectioned rest →
      Sectioned (s.toByte :: (v ++ rest))

/-- A payload starts with what is read of it, and no part of that can be spared. -/
theorem payload_core (hs : s ≠ .custom) {next : Module} (h : (payload m s).run data = .ok next) :
    ∃ core, core <+: data ∧ ∀ data', (core <+: data' → (payload m s).run data' = .ok next) ∧
      (data' <+: core → data' ≠ core → ∀ next', (payload m s).run data' ≠ .ok next') := by
  obtain ⟨c, h⟩ := run_eq_ok h
  obtain ⟨core, hcore, hspells⟩ := payload_local hs m _ _ _ h
  refine ⟨core, ⟨_, hcore.symm⟩, fun data' => ⟨?_, ?_⟩⟩
  · rintro ⟨t, rfl⟩
    exact hspells.run t
  · rintro ⟨t, rfl⟩ hne next' h'
    obtain ⟨c', h'⟩ := run_eq_ok h'
    obtain ⟨v, hv, hspells'⟩ := payload_local hs m _ _ _ h'
    -- The shorter payload would be read the same way inside the longer one.
    have hsame : data' ++ t ++ [] = v ++ (c'.rest ++ t) := by
      rw [← append_assoc, ← hv, append_nil]
      rfl
    obtain ⟨-, -, hrest⟩ := hspells.split hspells' hsame
    have ht : t = [] := (append_eq_nil_iff.mp hrest.symm).2
    exact hne (by rw [ht, append_nil])

/-- What a section needs to be read, and that bytes behind it do not matter. -/
theorem Reads.core {before : Bytes} (hbefore : Sectioned before) (hs : s ≠ .custom) {after : Bytes}
    (hv : Spells sectionData v data) (h : Reads last m (before ++ s.toByte :: (v ++ after)) n) :
    ∃ core, core <+: data ∧ ∀ v' data', Spells sectionData v' data' →
      (core <+: data' → Reads last m (before ++ s.toByte :: (v' ++ after)) n) ∧
      (data' <+: core → data' ≠ core →
        ∀ n', ¬ Reads last m (before ++ s.toByte :: (v' ++ after)) n') := by
  induction hbefore generalizing last m with
  | nil =>
    obtain ⟨hlast, next, hnext, h⟩ := h.of_cons hv
    obtain ⟨core, hcore, hread⟩ := payload_core hs hnext
    refine ⟨core, hcore, fun v' data' hv' => ⟨fun hprefix => ?_, fun hprefix hne n' hn' => ?_⟩⟩
    · exact .step hv' hlast ((hread data').1 hprefix) h
    · obtain ⟨-, next', hnext', -⟩ := hn'.of_cons hv'
      exact (hread data').2 hprefix hne next' hnext'
  | @cons u first rest t hu _ ih =>
    simp only [cons_append, append_assoc] at h ⊢
    obtain ⟨hlast, next, hnext, h⟩ := h.of_cons hu
    obtain ⟨core, hcore, hread⟩ := ih h
    refine ⟨core, hcore, fun v' data' hv' => ⟨fun hprefix => ?_, fun hprefix hne n' hn' => ?_⟩⟩
    · exact .step hu hlast hnext ((hread v' data' hv').1 hprefix)
    · obtain ⟨-, next', hnext', hn'⟩ := hn'.of_cons hu
      cases hnext.symm.trans hnext'
      exact (hread v' data' hv').2 hprefix hne n' hn'

end Reader

namespace Wire

open Reader

/-- Of a section other than a custom one only the start is read: bytes may be put behind its payload
without changing the module, and what the payload starts with cannot be cut short. -/
theorem Module.decode_payload_core {header before v data after : Bytes} {s : SectionId} {m : Module}
    (hheader : header.length = 8) (hbefore : Sectioned before) (hs : s ≠ .custom)
    (hv : Spells sectionData v data)
    (h : Module.decode (header ++ (before ++ s.toByte :: (v ++ after))) = .ok m) :
    (∀ extra w, Spells sectionData w (data ++ extra) →
      Module.decode (header ++ (before ++ s.toByte :: (w ++ after))) = .ok m) ∧
    ∃ core, core <+: data ∧ ∀ payload w, Spells sectionData w payload →
      (core <+: payload →
        Module.decode (header ++ (before ++ s.toByte :: (w ++ after))) = .ok m) ∧
      (payload <+: core → payload ≠ core →
        ∃ fault, Module.decode (header ++ (before ++ s.toByte :: (w ++ after))) = .error fault) := by
  obtain ⟨header', w, hdata, hheader', hdecode⟩ := decode_eq_ok h
  obtain ⟨rfl, -⟩ := append_inj hdata (hheader.trans hheader'.symm)
  obtain ⟨core, hcore, hread⟩ := Reads.core hbefore hs hv ((hdecode _ _).mp h)
  have hkept : ∀ payload w, Spells sectionData w payload → core <+: payload →
      Module.decode (header ++ (before ++ s.toByte :: (w ++ after))) = .ok m :=
    fun payload w hw hprefix => (hdecode _ _).mpr ((hread w payload hw).1 hprefix)
  refine ⟨fun extra w hw => hkept _ w hw (hcore.trans (prefix_append _ _)), core, hcore, ?_⟩
  refine fun payload w hw => ⟨hkept payload w hw, fun hprefix hne => ?_⟩
  cases hfound : Module.decode (header ++ (before ++ s.toByte :: (w ++ after))) with
  | error fault => exact ⟨fault, rfl⟩
  | ok n => exact absurd ((hdecode _ _).mp hfound) ((hread w payload hw).2 hprefix hne n)

theorem sectionData_short (data : Bytes) (h : data.length < 128) :
    Spells sectionData (UInt8.ofNat data.length :: data) data := by
  have hbound : data.length < 2 ^ 32 := by omega
  have hsize : size data.length = [UInt8.ofNat data.length] := by
    rw [size, Leb128.u32, toNat_ofNat_size hbound, Leb128.unsigned, if_pos h]
  have hread := sectionData_spells hbound
  rwa [hsize] at hread

/-- A function of the type without parameters and results that does nothing. -/
def idle : Module :=
  { types := [⟨[], [], [], []⟩], funcs := [0], code := [⟨[], [0x0B]⟩] }

theorem idle_decode_padded :
    Module.decode ([0x00, 0x61, 0x73, 0x6D, 1, 0, 0, 0] ++ ([1, 4, 1, 0x60, 0, 0] ++
      SectionId.funcs.toByte :: ([2, 1, 0] ++ [10, 4, 1, 2, 0, 0x0B]))) = .ok idle ∧
    Module.decode ([0x00, 0x61, 0x73, 0x6D, 1, 0, 0, 0] ++ ([1, 4, 1, 0x60, 0, 0] ++
      SectionId.funcs.toByte :: ([4, 1, 0, 0x0B, 0xFF] ++ [10, 4, 1, 2, 0, 0x0B]))) = .ok idle := by
  have hread : Module.decode ([0x00, 0x61, 0x73, 0x6D, 1, 0, 0, 0] ++ ([1, 4, 1, 0x60, 0, 0] ++
      SectionId.funcs.toByte :: ([2, 1, 0] ++ [10, 4, 1, 2, 0, 0x0B]))) = .ok idle := rfl
  have htypes : Sectioned [1, 4, 1, 0x60, 0, 0] :=
    .cons .types (sectionData_short [1, 0x60, 0, 0] (by decide)) .nil
  have hkept := Module.decode_payload_core rfl htypes (by decide)
    (sectionData_short [1, 0] (by decide)) hread
  exact ⟨hread, hkept.1 [0x0B, 0xFF] _ (sectionData_short [1, 0, 0x0B, 0xFF] (by decide))⟩

/-- Bytes put behind the payload of a section are accepted, and the module is the same. -/
theorem decode_padded_types :
    Module.decode [0x00, 0x61, 0x73, 0x6D, 1, 0, 0, 0, 1, 4, 1, 0x60, 0, 0] =
      .ok { types := [⟨[], [], [], []⟩] } ∧
    Module.decode [0x00, 0x61, 0x73, 0x6D, 1, 0, 0, 0, 1, 5, 1, 0x60, 0, 0, 0xFF] =
      .ok { types := [⟨[], [], [], []⟩] } :=
  ⟨rfl, rfl⟩

end Wire

end HostCatch
