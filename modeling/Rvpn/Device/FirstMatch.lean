import Rvpn.Device.Overlapped

/-!
# The first matching frame (inject.c:614-679)

A read completes with a datagram of its queue. The one it should complete with is the first that holds a type byte and
a whole Ethernet header and passes the filter (`firstMatch`). The loop of `Hook_GetOverlappedResult` has two ways to
miss it: the threshold is one byte short, so a datagram with 13 bytes of header is taken; and a shorter datagram is
treated as a receive error, which ends the search.

* `Searchable` — the queues in which neither happens;
* `firstMatching_iff` — exactly for these the call does what it should.
-/

namespace Rvpn

variable {w : World} {h : Handle} {ov : OvPtr} {ctx : HandleContext} {req : PendingRead} {rest : List PendingRead}
  {d : Dgram} {rx : List Dgram}

/-- A type byte, at least the 14 bytes of an Ethernet header, and a destination that passes the filter. -/
def Dgram.Qualifies (ctx : HandleContext) (d : Dgram) : Prop := 15 ≤ d.bytes.length ∧ isMacMatch d.frame ctx = true

instance : Decidable (d.Qualifies ctx) := inferInstanceAs (Decidable (_ ∧ _))

/-- The first datagram that qualifies, and what is behind it. -/
def firstMatch (ctx : HandleContext) : List Dgram → Option Dgram × List Dgram
  | [] => (none, [])
  | d :: ds => if d.Qualifies ctx then (some d, ds) else firstMatch ctx ds

/-- **First match**: the call takes the datagrams up to the first that qualifies and completes with that one, or it
takes all of them, none qualifies, and it returns `FALSE`. -/
structure FirstMatching (w : World) (h : Handle) (ov : OvPtr) (ctx : HandleContext) (req : PendingRead)
    (rest : List PendingRead) : Prop where
  taken : recvLoop ctx (queueOf w.socks req) = firstMatch ctx (queueOf w.socks req)
  completes : ∀ d post, firstMatch ctx (queueOf w.socks req) = (some d, post) →
    hookGetOverlappedResult w h ov = gorComplete w ctx rest req d ∧
      gorReturn w h ov = some (true, some (UInt32.ofNat (copyOut d req.buflen).length))
  incomplete : (∀ d ∈ queueOf w.socks req, ¬ d.Qualifies ctx) →
    hookGetOverlappedResult w h ov = gorIncomplete w ctx rest req [] ∧ gorReturn w h ov = some (false, none)

/-- As long as none has qualified, every datagram is long enough to be looked at and does not match; only the last of
the queue may be a runt. -/
def Searchable (ctx : HandleContext) (rx : List Dgram) : Prop :=
  ∀ pre d post, rx = pre ++ d :: post → (∀ x ∈ pre ++ [d], ¬ x.Qualifies ctx) →
    (14 ≤ d.bytes.length ∧ isMacMatch d.frame ctx = false) ∨ (d.bytes.length < 14 ∧ post = [])

/-! ## The search -/

/-- What `firstMatch` finds. -/
theorem firstMatch_spec (ctx : HandleContext) (rx : List Dgram) :
    (firstMatch ctx rx = (none, []) ∧ ∀ d ∈ rx, ¬ d.Qualifies ctx) ∨
    ∃ pre d post, rx = pre ++ d :: post ∧ (∀ x ∈ pre, ¬ x.Qualifies ctx) ∧ d.Qualifies ctx ∧
      firstMatch ctx rx = (some d, post) := by
  induction rx with
  | nil => exact .inl ⟨rfl, by simp⟩
  | cons d ds ih =>
    by_cases hq : d.Qualifies ctx
    · exact .inr ⟨[], d, ds, rfl, by simp, hq, if_pos hq⟩
    · have hstep : firstMatch ctx (d :: ds) = firstMatch ctx ds := if_neg hq
      rw [hstep]
      rcases ih with ⟨hm, hno⟩ | ⟨pre, x, post, rfl, hpre, hx, hm⟩
      · refine .inl ⟨hm, fun y hy => ?_⟩
        rcases List.mem_cons.1 hy with rfl | hy
        · exact hq
        · exact hno y hy
      · refine .inr ⟨d :: pre, x, post, rfl, fun y hy => ?_, hx, hm⟩
        rcases List.mem_cons.1 hy with rfl | hy
        · exact hq
        · exact hpre y hy

/-- What is behind the match is shorter than the queue. -/
theorem length_firstMatch {post : List Dgram} (h : firstMatch ctx rx = (some d, post)) : post.length < rx.length := by
  rcases firstMatch_spec ctx rx with ⟨hm, -⟩ | ⟨pre, x, post', rfl, -, -, hm⟩
  · cases h.symm.trans hm
  · obtain ⟨-, rfl⟩ := Prod.mk.inj (h.symm.trans hm)
    rw [List.length_append, List.length_cons]
    omega

theorem searchable_cons (hq : ¬ d.Qualifies ctx) : Searchable ctx (d :: rx) ↔
    ((14 ≤ d.bytes.length ∧ isMacMatch d.frame ctx = false) ∨ (d.bytes.length < 14 ∧ rx = [])) ∧ Searchable ctx rx := by
  constructor
  · intro h
    refine ⟨h [] d rx rfl (by simpa using hq), fun pre x post hrx hno => ?_⟩
    refine h (d :: pre) x post (by rw [hrx]; rfl) fun y hy => ?_
    rcases List.mem_cons.1 hy with rfl | hy
    · exact hq
    · exact hno y hy
  · rintro ⟨hd, htail⟩ pre x post hrx hno
    cases pre with
    | nil =>
      obtain ⟨rfl, rfl⟩ := List.cons.inj hrx
      exact hd
    | cons y pre =>
      obtain ⟨rfl, rfl⟩ := List.cons.inj hrx
      exact htail pre x post rfl fun z hz => hno z (List.mem_cons_of_mem _ hz)

theorem searchable_of_qualifies (hq : d.Qualifies ctx) : Searchable ctx (d :: rx) := by
  intro pre x post hrx hno
  refine absurd hq (hno d ?_)
  cases pre with
  | nil => exact List.mem_singleton.2 (List.cons.inj hrx).1
  | cons y pre => exact (List.cons.inj hrx).1 ▸ List.mem_cons_self

/-- **The loop finds the first match** exactly in the queues that can be searched. -/
theorem recvLoop_eq_firstMatch_iff (hrx : ∀ d ∈ rx, d.bytes.length ≤ 2048) :
    recvLoop ctx rx = firstMatch ctx rx ↔ Searchable ctx rx := by
  induction rx with
  | nil =>
    refine iff_of_true rfl fun pre d post h _ => ?_
    cases pre <;> cases h
  | cons d ds ih =>
    have hlen : d.bytes.length ≤ 2048 := hrx d List.mem_cons_self
    have hds : ∀ x ∈ ds, x.bytes.length ≤ 2048 := fun x hx => hrx x (List.mem_cons_of_mem _ hx)
    by_cases hfull : 14 ≤ d.bytes.length
    · have hf : d.fullSize = true := by simp [Dgram.fullSize, hfull, hlen]
      by_cases hm : isMacMatch d.frame ctx = true
      · have hloop : recvLoop ctx (d :: ds) = (some d, ds) := by rw [recvLoop, if_pos hf, if_pos hm]
        by_cases hq : d.Qualifies ctx
        · refine iff_of_true ?_ (searchable_of_qualifies hq)
          rw [hloop, firstMatch, if_pos hq]
        · -- 13 bytes of header are taken for a frame
          refine iff_of_false (fun h => ?_) fun h => ?_
          · rw [hloop, firstMatch, if_neg hq] at h
            exact Nat.lt_irrefl _ (length_firstMatch h.symm)
          · rcases ((searchable_cons hq).1 h).1 with ⟨-, hno⟩ | ⟨hlt, -⟩
            · rw [hm] at hno
              cases hno
            · omega
      · have hq : ¬ d.Qualifies ctx := fun h => hm h.2
        have hno : isMacMatch d.frame ctx = false := by simpa using hm
        rw [recvLoop, if_pos hf, if_neg hm, firstMatch, if_neg hq, ih hds, searchable_cons hq]
        exact ⟨fun h => ⟨.inl ⟨hfull, hno⟩, h⟩, fun h => h.2⟩
    · -- a runt ends the loop
      have hf : ¬ d.fullSize = true := by simp [Dgram.fullSize, hfull]
      have hq : ¬ d.Qualifies ctx := fun h => hfull (Nat.le_trans (by decide) h.1)
      rw [recvLoop, if_neg hf, firstMatch, if_neg hq, searchable_cons hq]
      constructor
      · intro h
        have hnil : ds = [] := by
          rcases firstMatch_spec ctx ds with ⟨hm, -⟩ | ⟨pre, x, post, -, -, -, hm⟩
          · exact congrArg Prod.snd (h.trans hm)
          · cases h.trans hm
        subst hnil
        exact ⟨.inr ⟨Nat.lt_of_not_le hfull, rfl⟩, (ih hds).1 rfl⟩
      · rintro ⟨⟨hle, -⟩ | ⟨-, rfl⟩, -⟩
        · exact absurd hle hfull
        · rfl

/-! ## The result -/

/-- **The call completes the read with the first matching frame** exactly if its queue can be searched. -/
theorem firstMatching_iff (hc : getHandleContext w.handleList h = some ctx) (hp : (w.ov ov).internal = statusPending)
    (hu : unlinkReq ov ctx.pending = (some req, rest)) (hrx : ∀ d ∈ queueOf w.socks req, d.bytes.length ≤ 2048) :
    FirstMatching w h ov ctx req rest ↔ Searchable ctx (queueOf w.socks req) := by
  rw [← recvLoop_eq_firstMatch_iff hrx]
  refine ⟨fun h => h.taken, fun htaken => ⟨htaken, fun d post hm => ?_, fun hno => ?_⟩⟩
  · rw [hm] at htaken
    simp only [hookGetOverlappedResult, gorReturn, hc, if_neg (not_not.2 hp), hu, htaken, and_self]
  · have hm : firstMatch ctx (queueOf w.socks req) = (none, []) := by
      rcases firstMatch_spec ctx (queueOf w.socks req) with ⟨hm, -⟩ | ⟨pre, x, post, heq, -, hx, -⟩
      · exact hm
      · exact absurd hx (hno x (by rw [heq]; simp))
    rw [hm] at htaken
    simp only [hookGetOverlappedResult, gorReturn, hc, if_neg (not_not.2 hp), hu, htaken, and_self]

/-- A read of `0x1001` whose socket has these datagrams. -/
def readingWorld (rx : List Dgram) : World :=
  { hookReadFile filteredWorld 0x1001 (some 7) 0 2048 (some (1, ⟨0x0100007F, 40001⟩)) with
    socks := [⟨1, ⟨0x0100007F, 40001⟩, rx⟩] }

/-- The request it has queued. -/
def readingRequest : PendingRead := ⟨7, 0, 2048, some 1⟩

/-- A datagram with the broadcast frame. -/
def broadcastDgram : Dgram := ⟨frameDatagram broadcastFrame, 0⟩

/-- A frame for another station is dropped, the broadcast behind it delivered. -/
theorem firstMatching_two : ∃ ctx, getHandleContext (readingWorld
      [⟨frameDatagram (List.replicate 14 0x02), 0⟩, broadcastDgram]).handleList 0x1001 = some ctx ∧
    FirstMatching (readingWorld [⟨frameDatagram (List.replicate 14 0x02), 0⟩, broadcastDgram]) 0x1001 7 ctx readingRequest [] := by
  refine ⟨_, rfl, (firstMatching_iff rfl rfl rfl (by decide)).2 ?_⟩
  refine (recvLoop_eq_firstMatch_iff (by decide)).1 ?_
  decide

/-- An empty datagram in front of the broadcast: the search ends with it. -/
theorem runt_stops : ∃ ctx, getHandleContext (readingWorld [⟨[], 0⟩, broadcastDgram]).handleList 0x1001 = some ctx ∧
    ((readingWorld [⟨[], 0⟩, broadcastDgram]).ov 7).internal = statusPending ∧
    unlinkReq 7 ctx.pending = (some readingRequest, []) ∧
    ¬ FirstMatching (readingWorld [⟨[], 0⟩, broadcastDgram]) 0x1001 7 ctx readingRequest [] := by
  refine ⟨_, rfl, rfl, rfl, fun h => ?_⟩
  have htaken := h.taken
  revert htaken
  decide

end Rvpn
