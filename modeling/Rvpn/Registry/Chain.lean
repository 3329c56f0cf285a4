import Rvpn.Registry.Handles
import Rvpn.Registry.Resolve

/-!
# What a create adds (register.c:335-377, 817-886)

`RegCreateKeyExW` goes through the path three times: `KeyExists` for the disposition, `NavigatePath` for the key, and
`CreateKey` for each component that is not there. All three stop at the same key, the deepest one that exists
(`navTokens_chain`), and the components behind it become one chain of fresh keys (`hang`).

The components are those in the 511 characters that `NavigatePath` copies. A path that short can be longer once it is
redirected, and then the last key of the chain gets a part of its name (`redirected_cut`). `create_chain_iff` says when
the chain is the one of the whole path.
-/

namespace Rvpn.Registry

open Cells

variable {F : CaseFold} {σ τ : Store} {H G : Heap} {i n m base : Id} {k : RegKey} {t : WStr} {ts us : List WStr} {hKey : HKEY}

/-! ## A chain of fresh keys -/

/-- Keys at `first`, `first + 1`, …, each the only child of the one before it, and the first a child of `parent`. -/
def chain (parent : Option Id) (first : Id) : List WStr → Heap
  | [] => []
  | t :: ts =>
    some { name := t, parent, children := if ts = [] then [] else [first + 1], values := [] } ::
      chain (some first) (first + 1) ts

/-- The chain hung under `m`, in front of the children it has. -/
def hang (H : Heap) (m : Id) (k : RegKey) (ts : List WStr) : Heap :=
  write H m { k with children := H.length :: k.children } ++ chain (some m) H.length ts

@[simp] theorem length_chain (parent : Option Id) (first : Id) (ts : List WStr) :
    (chain parent first ts).length = ts.length := by
  induction ts generalizing parent first with
  | nil => rfl
  | cons t ts ih => simp [chain, ih]

@[simp] theorem length_hang : (hang H m k ts).length = H.length + ts.length := by simp [hang, write]

theorem hang_ne (hts : ts ≠ []) : hang H m k ts ≠ H := by
  intro he
  have hlen := congrArg List.length he
  rw [length_hang] at hlen
  exact hts (List.length_eq_zero_iff.1 (by omega))

theorem deref_last (G : Heap) (k : RegKey) : deref (G ++ [some k]) G.length = some k := by simp [deref]

/-- **Creating below a fresh key** goes on as a chain. -/
theorem navTokens_fresh (parent : Option Id) (t : WStr) (ts : List WStr) :
    navTokens F true (G ++ [some { name := t, parent, children := [], values := [] }]) G.length ts =
      some (some (G.length + ts.length), G ++ chain parent G.length (t :: ts)) := by
  induction ts generalizing G parent t with
  | nil => rfl
  | cons u us ih =>
    have hlast := deref_last G { name := t, parent, children := [], values := [] }
    have hnone : childOf F (G ++ [some { name := t, parent, children := [], values := [] }]) G.length u = some none := by
      rw [childOf, hlast]
      rfl
    have hlen : (G ++ [some ({ name := t, parent, children := [], values := [] } : RegKey)]).length = G.length + 1 := by
      simp
    have hnew : addChild (G ++ [some { name := t, parent, children := [], values := [] }]) G.length
        { name := t, parent, children := [], values := [] } u =
        (G ++ [some { name := t, parent, children := [G.length + 1], values := [] }]) ++
          [some { name := u, parent := some G.length, children := [], values := [] }] := by
      simp [addChild, alloc, write]
    have hG : (G ++ [some ({ name := t, parent, children := [G.length + 1], values := [] } : RegKey)]).length =
        G.length + 1 := by simp
    have hrec := ih (G := G ++ [some { name := t, parent, children := [G.length + 1], values := [] }]) (some G.length) u
    rw [hG] at hrec
    simp only [navTokens, hnone, if_true, createKey_of_deref hlast, hlen, hnew]
    rw [hrec]
    simp [chain, Nat.add_assoc, Nat.add_comm us.length]

/-- **What `NavigatePath` with `create` does**: it finds the key, or it hangs the components behind the deepest
existing key under that one. -/
theorem navTokens_chain (hwf : WF F H) (hlive : Live H i) (ts : List WStr) :
    (∃ n, Walk F H i ts n ∧ navTokens F true H i ts = some (some n, H)) ∨
    ∃ pre t post m k, ts = pre ++ t :: post ∧ Walk F H i pre m ∧ deref H m = some k ∧ (∀ j, ¬ Child F H m t j) ∧
      navTokens F true H i ts = some (some (H.length + post.length), hang H m k (t :: post)) := by
  induction ts generalizing i with
  | nil => exact .inl ⟨i, rfl, rfl⟩
  | cons t ts ih =>
    obtain ⟨k, hk⟩ := hlive
    rcases childOf_spec (t := t) hwf hk with ⟨j, hj, hf⟩ | ⟨hno, hf⟩
    · have hstep : navTokens F true H i (t :: ts) = navTokens F true H j ts := by rw [navTokens, hf]
      rw [hstep]
      rcases ih hj.live with ⟨n, hw, hnav⟩ | ⟨pre, u, post, m, k', rfl, hw, hk', hno, hnav⟩
      · exact .inl ⟨n, ⟨j, hj, hw⟩, hnav⟩
      · exact .inr ⟨t :: pre, u, post, m, k', rfl, ⟨j, hj, hw⟩, hk', hno, hnav⟩
    · refine .inr ⟨[], t, ts, i, k, rfl, rfl, hk, hno, ?_⟩
      have hnew : addChild H i k t = write H i { k with children := H.length :: k.children } ++
          [some { name := t, parent := some i, children := [], values := [] }] :=
        write_alloc (lt_of_deref hk)
      have hlen : (write H i { k with children := H.length :: k.children }).length = H.length := by simp [write]
      have hfresh := navTokens_fresh (F := F) (G := write H i { k with children := H.length :: k.children })
        (some i) t ts
      rw [hlen] at hfresh
      simp only [navTokens, hf, if_true, createKey_of_deref hk, hnew]
      exact hfresh

/-! ## The three traversals -/

/-- **`KeyExists` and `NavigatePath` agree** on every path. -/
theorem keyExists_iff (hwf : WF F H) (hlive : Live H i) (path : WStr) :
    ∃ b r, keyExists F H i path = some b ∧ navigatePath F false H i path = some (r, H) ∧ (b = true ↔ r ≠ none) := by
  have hpath : tokens (lstrcpynW path 512) = [] ∨ Live H i := .inr hlive
  obtain ⟨b, hb, hiff⟩ := existsTokens_total (F := F) hwf hpath
  rw [keyExists_eq, navigatePath_eq]
  rcases navTokens_open_total (F := F) hwf hpath with ⟨n, hw, hnav⟩ | ⟨hno, hnav⟩
  · exact ⟨b, _, hb, hnav, by simp [hiff.2 ⟨n, hw⟩]⟩
  · refine ⟨b, _, hb, hnav, ?_⟩
    rw [hiff]
    simp [hno]

/-- What a create by the hook leaves and reports, where the components `ts` are walked from `base`. -/
inductive Created (F : CaseFold) (H : Heap) (base : Id) (ts : List WStr) : Disposition → Heap → Prop
  | existing {n : Id} (hw : Walk F H base ts n) : Created F H base ts .openedExistingKey H
  /-- `m` is the deepest existing key, `t :: post` are the missing components. -/
  | fresh {pre post : List WStr} {t : WStr} {m : Id} {k : RegKey} (hts : ts = pre ++ t :: post) (hw : Walk F H base pre m)
      (hk : deref H m = some k) (hno : ∀ j, ¬ Child F H m t j) :
      Created F H base ts .createdNewKey (hang H m k (t :: post))

theorem Created.opened_iff {d : Disposition} (h : Created F H base ts d G) : d = .openedExistingKey ↔ G = H := by
  cases h with
  | existing hw => simp
  | fresh hts hw hk hno => simp [hang_ne]

/-- Nothing is made where the path leads to a key. -/
theorem Created.of_walk {d : Disposition} (h : Created F H base ts d G) (hwf : WF F H) (hw : Walk F H base ts n) :
    d = .openedExistingKey := by
  cases h with
  | existing _ => rfl
  | fresh hts hpre hk hno =>
    rw [hts, walk_append] at hw
    obtain ⟨m', hm', j, hj, -⟩ := hw
    obtain rfl := hpre.unique hwf hm'
    exact absurd hj (hno j)

/-- The create that `NavigatePath` does and the disposition that `KeyExists` has called for. -/
theorem navTokens_created (hwf : WF F H) (hlive : Live H base) {b : Bool} (hb : b = true ↔ ∃ n, Walk F H base ts n) :
    ∃ n G, navTokens F true H base ts = some (some n, G) ∧
      Created F H base ts (if b then .openedExistingKey else .createdNewKey) G := by
  rcases navTokens_chain hwf hlive ts with ⟨n, hw, hnav⟩ | ⟨pre, t, post, m, k, hts, hw, hk, hno, hnav⟩
  · rw [if_pos (hb.2 ⟨n, hw⟩)]
    exact ⟨n, _, hnav, .existing hw⟩
  · have hfresh : Created F H base ts .createdNewKey _ := .fresh hts hw hk hno
    have hmissing : ¬ ∃ n, Walk F H base ts n := by
      rintro ⟨n, hn⟩
      cases hfresh.of_walk hwf hn
    rw [if_neg fun h => hmissing (hb.1 h)]
    exact ⟨_, _, hnav, hfresh⟩

/-- **A create of the hook** from a live key: the disposition, the tree it leaves, and that the path is there now. -/
theorem createKeyEx_spec (hwf : WF F σ.heap) (hb : baseKey .ex σ hKey = some base) (hlive : Live σ.heap base)
    (hroom : σ.fakeKeys.length < 2 ^ 29) (sub : Option WStr) :
    ∃ h d τ, hookRegCreateKeyExW F σ hKey sub = some (.key h (some d), τ) ∧
      Created F σ.heap base (walked F σ hKey sub) d τ.heap ∧ WF F τ.heap ∧ Grows σ.heap τ.heap ∧
      (∃ n, Walk F τ.heap base (walked F σ hKey sub) n) ∧ τ.isWow64 = σ.isWow64 ∧
      ∃ e, τ.fakeKeys = σ.fakeKeys ++ [e] := by
  have hpath : walked F σ hKey sub = [] ∨ Live σ.heap base := .inr hlive
  obtain ⟨b, hex, hiff⟩ := existsTokens_total (F := F) hwf hpath
  obtain ⟨n, H, h, υ, τ, hnav, ho, hs, hall⟩ := createKey_total hwf hKey sub hpath hroom
  obtain ⟨n', G, hnav', hcreated⟩ := navTokens_created hwf hlive hiff
  obtain ⟨-, rfl⟩ := Prod.mk.inj (Option.some.inj (hnav.symm.trans hnav'))
  obtain ⟨m, -, hwf', hg, hw⟩ := navTokens_create hwf (fun t ht => mem_tokens ht) hnav
  obtain ⟨d, hd, hcall⟩ := hall .ex hb
  rw [walked] at hex
  simp only [Variant.disposition, keyExists_eq, hex, Option.map_some, Option.some.injEq] at hd
  subst hd
  obtain ⟨hheap, hrows, -⟩ := handOut_heap ho
  have hwow : υ.isWow64 = σ.isWow64 := by
    rcases (handOut_cases ho).2 with ⟨-, rfl⟩ | ⟨-, -, rfl⟩ <;> rfl
  obtain ⟨ws, -, hτ⟩ := autoSave_eq_some.1 hs
  have hτheap : τ.heap = H := by rw [hτ]; exact hheap
  exact ⟨h, _, τ, hcall, by rw [hτheap]; exact hcreated, by rw [hτheap]; exact hwf', by rw [hτheap]; exact hg,
    ⟨m, by rw [hτheap]; exact hw⟩, by rw [hτ]; exact hwow, ⟨_, by rw [hτ]; exact hrows⟩⟩

/-! ## The result -/

theorem names_chain (parent : Option Id) (first : Id) (ts : List WStr) :
    (chain parent first ts).map (Option.map RegKey.name) = ts.map some := by
  induction ts generalizing parent first with
  | nil => rfl
  | cons t ts ih => rw [chain, List.map_cons, List.map_cons, ih, Option.map_some]

/-- The tree tells where a chain was hung, and which. -/
theorem hang_inj {k' : RegKey} (hk : deref H m = some k) (h : hang H m k ts = hang H n k' us) :
    m = n ∧ ts = us := by
  obtain ⟨hw, hc⟩ := List.append_inj h (by rw [length_write, length_write])
  constructor
  · by_contra hne
    have hself := deref_write_self (a := { k with children := H.length :: k.children }) (lt_of_deref hk)
    rw [hw, deref_write_ne hne, hk] at hself
    have hlen := congrArg (fun k : RegKey => k.children.length) (Option.some.inj hself)
    simp at hlen
  · have hnames := congrArg (List.map (Option.map RegKey.name)) hc
    rw [names_chain, names_chain] at hnames
    exact List.map_injective_iff.2 (Option.some_injective _) hnames

/-- Two paths for which a create leaves the same: the same components up to case, or both are there. -/
theorem Created.both {d : Disposition} (hwf : WF F H) (h : Created F H base ts d G) (h' : Created F H base us d G) :
    ts.map F.fold = us.map F.fold ∨ (∃ n, Walk F H base ts n) ∧ ∃ n, Walk F H base us n := by
  generalize hd : G = G' at h'
  cases h with
  | existing hw =>
    cases h' with
    | existing hw' => exact .inr ⟨⟨_, hw⟩, _, hw'⟩
  | fresh hts hw hk hno =>
    cases h' with
    | fresh hts' hw' hk' hno' =>
      obtain ⟨rfl, hpost⟩ := hang_inj hk hd
      refine .inl ?_
      rw [hts, hts', List.map_append, List.map_append, hw.tokens_eq hwf hw', hpost]

/-- The components of the path that the hook creates, after `RedirectSubKey`. -/
def components (F : CaseFold) (σ : Store) (hKey : HKEY) (sub : Option WStr) : List WStr :=
  tokens (redirectSubKey F σ.isWow64 hKey (sub.getD []))

/-- What a create has to do: the two lookups agree on the path; the disposition says if the tree has changed; what has
changed is one chain for the components that were missing; and a second create finds the key. -/
def CreatesChain (F : CaseFold) (σ : Store) (hKey : HKEY) (sub : Option WStr) (base : Id) : Prop :=
  (∃ b r, keyExists F σ.heap base (sub.getD []) = some b ∧
    navigatePath F false σ.heap base (sub.getD []) = some (r, σ.heap) ∧ (b = true ↔ r ≠ none)) ∧
  ∃ h d τ, hookRegCreateKeyExW F σ hKey sub = some (.key h (some d), τ) ∧
    (d = .openedExistingKey ↔ τ.heap = σ.heap) ∧ Created F σ.heap base (components F σ hKey sub) d τ.heap ∧
    ∃ h' τ', hookRegCreateKeyExW F τ hKey sub = some (.key h' (some .openedExistingKey), τ')

/-- A create that makes the missing chain has walked the whole path, or both that and the cut one were there. -/
theorem CreatesChain.walked (hwf : WF F σ.heap) (hb : baseKey .ex σ hKey = some base) (hlive : Live σ.heap base)
    (hroom : σ.fakeKeys.length < 2 ^ 29) {sub : Option WStr} (h : CreatesChain F σ hKey sub base) :
    walked F σ hKey sub = components F σ hKey sub ∨
    (∃ n, Walk F σ.heap base (walked F σ hKey sub) n) ∧ ∃ n, Walk F σ.heap base (components F σ hKey sub) n := by
  obtain ⟨-, h, d, τ, hcall, -, hcreated, -⟩ := h
  obtain ⟨h', d', τ', hcall', hcreated', -⟩ := createKeyEx_spec hwf hb hlive hroom sub
  obtain ⟨hrep, rfl⟩ := Prod.mk.inj (Option.some.inj (hcall.symm.trans hcall'))
  cases hrep
  rcases hcreated'.both hwf hcreated with hsame | hboth
  · exact .inl (tokens_take_of_same hsame)
  · exact .inr hboth

/-- **When a create makes exactly the missing chain**: the buffer of `NavigatePath` keeps all components of the
redirected path, or neither the path nor what is left of it is missing. -/
theorem create_chain_iff (hwf : WF F σ.heap) (hb : baseKey .ex σ hKey = some base) (hlive : Live σ.heap base)
    (hroom : σ.fakeKeys.length + 1 < 2 ^ 29) (sub : Option WStr) : CreatesChain F σ hKey sub base ↔
      walked F σ hKey sub = components F σ hKey sub ∨
      (∃ n, Walk F σ.heap base (walked F σ hKey sub) n) ∧ ∃ n, Walk F σ.heap base (components F σ hKey sub) n := by
  refine ⟨fun h => h.walked hwf hb hlive (by omega), fun hcond => ?_⟩
  obtain ⟨h, d, τ, hcall, hcreated, hwf', hg, ⟨n, hw⟩, hwow, e, hrows⟩ := createKeyEx_spec hwf hb hlive (by omega) sub
  refine ⟨keyExists_iff hwf hlive _, h, d, τ, hcall, hcreated.opened_iff, ?_, ?_⟩
  · rcases hcond with hsame | ⟨⟨n, hn⟩, m, hm⟩
    · rwa [← hsame]
    · obtain rfl := hcreated.of_walk hwf hn
      rw [hcreated.opened_iff.1 rfl]
      exact .existing hm
  · -- the second call starts from the same base and finds the key
    have hb' : baseKey .ex τ hKey = some base := by
      unfold baseKey at hb ⊢
      by_cases hr : hKey ∈ Variant.ex.roots
      · rw [if_pos hr] at hb ⊢
        exact hb
      · rw [if_neg hr] at hb ⊢
        exact handleToKey_append hrows hb
    have hroom' : τ.fakeKeys.length < 2 ^ 29 := by
      rw [hrows, List.length_append, List.length_singleton]
      exact hroom
    obtain ⟨h', d', τ', hcall', hcreated', -⟩ := createKeyEx_spec hwf' hb' (hg.live hlive) hroom' sub
    have hsame : walked F τ hKey sub = walked F σ hKey sub := by rw [walked, walked, hwow]
    rw [hsame] at hcreated'
    rw [hcreated'.of_walk hwf' hw] at hcall'
    exact ⟨h', τ', hcall'⟩

/-- The buffer keeps a path of at most 511 characters. -/
theorem walked_eq {sub : Option WStr} (hlen : (redirectSubKey F σ.isWow64 hKey (sub.getD [])).length ≤ 511) :
    walked F σ hKey sub = components F σ hKey sub := by
  rw [walked, components, lstrcpynW, List.take_of_length_le hlen]

/-- `A\B` in an empty registry: two keys. -/
theorem create_chain_two : CreatesChain asciiFold (Store.empty false) HKEY_LOCAL_MACHINE (some (wide "A\\B")) regRoot :=
  (create_chain_iff emptyHeap_wf rfl emptyHeap_live (by decide) _).2 (.inl (walked_eq (by decide)))

/-- The path keeps its 21 characters in front and 490 letters. -/
theorem below_longName : (below (longName 502)).take 511 = below (longName 490) := by
  have hlen : (SOFTWARE ++ bslash :: WOW6432Node).length = 20 := by decide
  have hne : ∀ n, longName (n + 1) ≠ [] := fun n h => by cases h
  unfold below
  rw [if_neg (hne 501), if_neg (hne 489), List.take_append, hlen, List.take_of_length_le (by rw [hlen]; decide)]
  exact congrArg (fun m => SOFTWARE ++ bslash :: WOW6432Node ++ bslash :: m) List.take_replicate

/-- What is redirected can outgrow the buffer: `SOFTWARE\a…a` with 502 letters makes a key with 490. -/
theorem redirected_cut : ¬ CreatesChain asciiFold (Store.empty true) HKEY_LOCAL_MACHINE
    (some (SOFTWARE ++ bslash :: longName 502)) regRoot := by
  have hs : tokens SOFTWARE = [SOFTWARE] := by decide
  have hstrip : strip ((SOFTWARE ++ bslash :: longName 502).drop 8) = longName 502 := rfl
  have hcut : (longName 502).take 255 = longName 255 := List.take_replicate
  have hred : redirect asciiFold (SOFTWARE ++ bslash :: longName 502) = below (longName 502) := by
    rw [redirect_below, hstrip]
    · rw [List.length_append, List.length_cons, longName, List.length_replicate]
      decide
    · rw [StartsWith, tokens_append, hs]
      rfl
    · rw [hstrip, hcut, StartsWith, tokens_longName]
      intro h
      have hlen := length_of_fold_eq (Option.some.inj h)
      rw [longName, List.length_replicate] at hlen
      cases hlen
  have hcomp : components asciiFold (Store.empty true) HKEY_LOCAL_MACHINE (some (SOFTWARE ++ bslash :: longName 502)) =
      [SOFTWARE, WOW6432Node, longName 502] := by
    have htokens := congrArg tokens hred
    rw [tokens_below, tokens_longName] at htokens
    exact htokens
  have hwalked : walked asciiFold (Store.empty true) HKEY_LOCAL_MACHINE (some (SOFTWARE ++ bslash :: longName 502)) =
      [SOFTWARE, WOW6432Node, longName 490] := by
    have htokens := congrArg (fun s => tokens (lstrcpynW s 512)) hred
    rw [lstrcpynW, lstrcpynW, below_longName, tokens_below, tokens_longName] at htokens
    exact htokens
  intro h
  have hcond := h.walked emptyHeap_wf rfl emptyHeap_live (by decide)
  rw [hcomp, hwalked] at hcond
  rcases hcond with hsame | ⟨⟨n, j, ⟨k, c, hk, hj, -⟩, -⟩, -⟩
  · have hname := congrArg List.length (List.cons.inj (List.cons.inj (List.cons.inj hsame).2).2).1
    rw [longName, longName, List.length_replicate, List.length_replicate] at hname
    cases hname
  · obtain rfl : ({ name := [], parent := none, children := [], values := [] } : RegKey) = k := Option.some.inj hk
    cases hj

end Rvpn.Registry
