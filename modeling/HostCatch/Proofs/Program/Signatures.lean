import HostCatch.Proofs.Program.Coding

namespace HostCatch

open Wire

namespace ValType

variable {exts : List ExtType} {vs : List ValType}

theorem ofWire_length (h : ofWire (exts.map ExtType.code) exts = .ok vs) : vs.length = exts.length := by
  unfold ofWire at h
  split at h
  next hnil =>
    have hlength := (mapM_eq_ok_iff.mp h).length_eq
    rw [List.length_map] at hlength
    exact hlength.symm
  next => exact (mapM_eq_ok_iff.mp h).length_eq.symm

end ValType

namespace Signature

theorem funcType_counts : Reader.Yields Reader.funcType fun t =>
    (t.params = t.extParams.map ExtType.code ∧ t.extParams.length < 2 ^ 32) ∧
      t.results = t.extResults.map ExtType.code ∧ t.extResults.length < 2 ^ 32 := by
  have hlist := Reader.list_yields Reader.extType_eq_ok
  refine hlist.bind fun params hparams => hlist.bind fun results hresults => .done ?_
  exact ⟨⟨rfl, hparams.1⟩, rfl, hresults.1⟩

/-- A signature of known value types, whatever its references refer to, is read from its bytes as it was,
and what follows them is left. The format counts the types of a list in 32 bits, and longer lists are not
read back. -/
theorem toWire_readsBack_iff {s : Signature} (h : s.IsKnown) :
    (∀ rest pos, ∃ t, Reader.funcType ⟨funcType s.toWire ++ rest, pos⟩ =
        .ok t ⟨rest, pos + (funcType s.toWire).length⟩ ∧
      ValType.ofWire t.params t.extParams = .ok s.params ∧
      ValType.ofWire t.results t.extResults = .ok s.results) ↔
    s.params.length < 2 ^ 32 ∧ s.results.length < 2 ^ 32 := by
  constructor
  · intro hback
    obtain ⟨t, hread, hparams, hresults⟩ := hback [] 0
    obtain ⟨⟨hcodes, hcount⟩, hcodes', hcount'⟩ := funcType_counts hread
    rw [hcodes] at hparams
    rw [hcodes'] at hresults
    exact ⟨ValType.ofWire_length hparams ▸ hcount, ValType.ofWire_length hresults ▸ hcount'⟩
  · rintro ⟨hparams, hresults⟩ rest pos
    refine ⟨s.toWire.full, toWire_spells hparams hresults rest pos, ?_⟩
    rw [toWire_full]
    exact ⟨ValType.ofWire_toExt fun v hv => h v (List.mem_append_left _ hv),
      ValType.ofWire_toExt fun v hv => h v (List.mem_append_right _ hv)⟩

/-- Numbers, references with a code, and references without: one that is never null, one to a type and
one to a heap type without a name. -/
def mixed : Signature where
  params := [.i32, .externRef, .ref ⟨false, HeapType.host⟩, .ref ⟨true, 5⟩]
  results := [.v128, .funcRef, .ref ⟨true, -100⟩]

theorem mixed_readsBack : mixed.IsKnown ∧ ∀ rest pos, ∃ t,
    Reader.funcType ⟨funcType mixed.toWire ++ rest, pos⟩ =
        .ok t ⟨rest, pos + (funcType mixed.toWire).length⟩ ∧
      ValType.ofWire t.params t.extParams = .ok mixed.params ∧
      ValType.ofWire t.results t.extResults = .ok mixed.results := by
  have hknown : mixed.IsKnown := by
    simp [mixed, IsKnown, ValType.IsKnown, ValType.externRef, ValType.funcRef]
  exact ⟨hknown, (toWire_readsBack_iff hknown).mpr (by decide)⟩

end Signature

end HostCatch
