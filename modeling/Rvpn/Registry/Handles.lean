import Rvpn.Registry.Restart
import Rvpn.Registry.Values

/-!
# Rows of the handle table

What a row added to the table leaves alone (`handleToKey_append`), how the path of a key continues the path of its base
(`Extends`), and what the cache holds in every run: handles of rows with the path they are cached under (`CacheRows`).
-/

namespace Rvpn.Registry

open Cells

variable {F : CaseFold} {σ τ : Store} {c : RegCall} {r : Reply} {base n : Id} {h : HKEY} {path : WStr}

/-- How the full path of a key continues the path of the base it was reached from. -/
def Extends (σ : Store) (base : Id) (red path : WStr) : Prop :=
  (base = regRoot ∧ path = red) ∨
  ∃ p, (⟨some base, some p⟩ : FakeKey) ∈ σ.fakeKeys ∧ path = if red = [] then p else p ++ bslash :: red

theorem extends_of_base (hi : Inv F σ) {v : Variant} {hKey : HKEY} (hb : baseKey v σ hKey = some base) (red : WStr) :
    Extends σ base red (buildFullPath σ hKey red) := by
  rcases baseKey_cases hi hb with ⟨rfl, hp⟩ | ⟨p, hmem, hp⟩
  · exact .inl ⟨rfl, hp red⟩
  · exact .inr ⟨p, hmem, hp red⟩

/-- Rows that are added do not change what the others say. -/
theorem handleToKey_append {rows : List FakeKey} (hrows : τ.fakeKeys = σ.fakeKeys ++ rows)
    (hh : handleToKey σ h = some n) : handleToKey τ h = some n := by
  obtain ⟨hne, e, he, hkey⟩ := handleToKey_eq_some.1 hh
  refine handleToKey_eq_some.2 ⟨hne, e, ?_, hkey⟩
  rw [hrows, List.getElem?_append_left (List.getElem?_eq_some_iff.1 he).1, he]

theorem handleToKey_new {e : FakeKey} (hrows : τ.fakeKeys = σ.fakeKeys ++ [e]) (hlt : σ.fakeKeys.length < 2 ^ 29)
    (hkey : e.key = some n) : handleToKey τ (FAKE_HANDLE_BASE + UInt32.ofNat σ.fakeKeys.length) = some n := by
  refine handleToKey_eq_some.2 ⟨handle_ne_fake hlt, e, ?_, hkey⟩
  rw [fakeIndex_handle hlt, hrows]
  simp

/-! ## The cache and the table -/

/-- Every cached handle is that of a row with the path it is cached under. -/
def CacheRows (σ : Store) : Prop :=
  ∀ path h, (path, h) ∈ σ.handleCache →
    ∃ n, handleToKey σ h = some n ∧ (⟨some n, some path⟩ : FakeKey) ∈ σ.fakeKeys

theorem CacheRows.extend (hc : CacheRows σ) (ho : handOut F σ n path = some (h, τ)) : CacheRows τ := by
  obtain ⟨-, hrows, -⟩ := handOut_heap ho
  intro p h' hmem
  rcases handOut_cache ho hmem with hmem | ⟨rfl, rfl⟩
  · obtain ⟨m, hm, hrow⟩ := hc p h' hmem
    exact ⟨m, handleToKey_append hrows hm, by rw [hrows]; exact List.mem_append_left _ hrow⟩
  · exact ⟨n, handleToKey_new hrows (handOut_cases ho).1 rfl, by rw [hrows]; simp⟩

theorem CacheRows.congr (hc : CacheRows σ) (hrows : τ.fakeKeys = σ.fakeKeys) (hcache : τ.handleCache = σ.handleCache) :
    CacheRows τ := by
  intro path h hmem
  obtain ⟨n, hn, hrow⟩ := hc path h (hcache ▸ hmem)
  exact ⟨n, handleToKey_append (by rw [hrows, List.append_nil]) hn, hrows ▸ hrow⟩

/-- The handle handed out has a row: the new one, or that of the cached handle. -/
theorem CacheRows.handed (hc : CacheRows σ) (ho : handOut F σ n path = some (h, τ)) : ∃ m, handleToKey τ h = some m := by
  have hrows := (handOut_heap ho).2.1
  obtain ⟨hlt, ⟨hhit, -⟩ | ⟨-, hnew, -⟩⟩ := handOut_cases ho
  · obtain ⟨⟨p, h'⟩, hfind, rfl⟩ := Option.map_eq_some_iff.1 hhit
    obtain ⟨m, hm, -⟩ := hc p h' (List.mem_of_find?_eq_some hfind)
    exact ⟨m, handleToKey_append hrows hm⟩
  · rw [hnew]
    exact ⟨n, handleToKey_new hrows hlt rfl⟩

theorem cacheRows_call (hi : Inv F σ) (hc : CacheRows σ) (h : call F σ c = some (r, τ)) : CacheRows τ := by
  cases call_effect hi h with
  | quiet _ => exact hc
  | created hb hwf hg hw ho hs =>
    obtain ⟨-, hrows, hcache⟩ := autoSave_heap hs
    refine CacheRows.congr (CacheRows.extend ?_ ho) hrows hcache
    exact hc
  | opened hb hw ho => exact hc.extend ho
  | set hh hk hs => exact hc.congr (autoSave_heap hs).2.1 (autoSave_heap hs).2.2
  | erased hh hk hs => exact hc.congr (autoSave_heap hs).2.1 (autoSave_heap hs).2.2
  | unlinked hh hk hj hch hs => exact hc.congr (autoSave_heap hs).2.1 (autoSave_heap hs).2.2

theorem installed_tables (h₀ : Installed F σ) : σ.fakeKeys = [] ∧ σ.handleCache = [] := by
  cases h₀ with
  | fresh w => exact ⟨rfl, rfl⟩
  | again hσ hrun hmod hroot hfuel hload hfits =>
    obtain ⟨loaded, -, rfl⟩ := Option.map_eq_some_iff.1 hload
    exact ⟨rfl, rfl⟩

end Rvpn.Registry
