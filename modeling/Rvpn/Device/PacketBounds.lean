import Rvpn.Device.World

/-!
# The copy in Hook_WriteFile (inject.c:380-453)

`hookWriteFile` leaves out what stands between the length check and `send`: the two socket calls, the
`HeapAlloc` of the packet and the `memcpy`. Here they are, with their sizes in 32-bit arithmetic.

| here | there |
| --- | --- |
| `writeFileChecks`  | `inject.c:390-395`, the two comparisons |
| `writeFilePacket`  | `inject.c:400-422` |

Both `frame_len + RADMIN_HEADER_SIZE` and `1 + frame_len` are sums of `uint32_t`.
-/

namespace Rvpn

/-- What the system answers to `Hook_WriteFile`: `socket`, `connect`, and `HeapAlloc` for a given size. -/
structure SendEnv where
  tapActive : Bool
  socket : Bool
  connect : Bool
  heapAlloc : UInt32 → Bool

/-- The packet block and the copy into it: `memcpy(pkt + dst, lpBuffer + src, len)`. -/
structure PacketCopy where
  allocSize : UInt32
  dst : Nat
  src : Nat
  len : UInt32
deriving DecidableEq, Repr

/-- Whether the branch that sends is taken: `n` is `nNumberOfBytesToWrite`, `frameLen` the length in the header. -/
def writeFileChecks (tapActive : Bool) (n frameLen : UInt32) : Bool :=
  tapActive && decide (UInt32.ofNat radminHeaderSize ≤ n) && decide (frameLen + UInt32.ofNat radminHeaderSize ≤ n)

/-- The packet that is built and sent, if one is. -/
def writeFilePacket (e : SendEnv) (n frameLen : UInt32) : Option PacketCopy :=
  if writeFileChecks e.tapActive n frameLen then
    if e.socket then
      if e.connect then
        if e.heapAlloc (1 + frameLen) then some ⟨1 + frameLen, 1, radminHeaderSize, frameLen⟩ else none
      else none
    else none
  else none

/-- The system lets a packet for this length be built. -/
def SendEnv.Builds (e : SendEnv) (frameLen : UInt32) : Prop :=
  e.tapActive = true ∧ e.socket = true ∧ e.connect = true ∧ e.heapAlloc (1 + frameLen) = true

/-- The copy reads inside the `n` bytes of the caller's buffer and writes inside a block that has
room for the type byte and the frame. -/
structure PacketCopy.InBounds (p : PacketCopy) (n : UInt32) : Prop where
  reads : p.src + p.len.toNat ≤ n.toNat
  size : p.allocSize.toNat = 1 + p.len.toNat
  writes : p.dst + p.len.toNat ≤ p.allocSize.toNat

/-! ## The 32-bit sums -/

@[simp] theorem toNat_radminHeaderSize : (UInt32.ofNat radminHeaderSize).toNat = 8 := rfl

/-- Short of the last eight lengths the check compares the natural numbers. -/
theorem add_header_le {n frameLen : UInt32} (h : frameLen.toNat + 8 < 2 ^ 32) :
    frameLen + UInt32.ofNat radminHeaderSize ≤ n ↔ frameLen.toNat + 8 ≤ n.toNat := by
  rw [UInt32.le_iff_toNat_le, UInt32.toNat_add, toNat_radminHeaderSize, Nat.mod_eq_of_lt h]

/-- For the last eight lengths the sum is below 8. -/
theorem add_header_wraps {frameLen : UInt32} (h : 2 ^ 32 ≤ frameLen.toNat + 8) :
    (frameLen + UInt32.ofNat radminHeaderSize).toNat < 8 := by
  have hlt := frameLen.toNat_lt
  rw [UInt32.toNat_add, toNat_radminHeaderSize]
  omega

theorem writeFilePacket_eq_some {e : SendEnv} {n frameLen : UInt32} {p : PacketCopy} :
    writeFilePacket e n frameLen = some p ↔
      (UInt32.ofNat radminHeaderSize ≤ n ∧ frameLen + UInt32.ofNat radminHeaderSize ≤ n) ∧ e.Builds frameLen ∧
        p = ⟨1 + frameLen, 1, radminHeaderSize, frameLen⟩ := by
  unfold writeFilePacket writeFileChecks SendEnv.Builds
  constructor
  · intro h
    split_ifs at h with hc hs hk ha
    simp only [Bool.and_eq_true, decide_eq_true_eq] at hc
    exact ⟨⟨hc.1.2, hc.2⟩, ⟨hc.1.1, hs, hk, ha⟩, (Option.some.inj h).symm⟩
  · rintro ⟨⟨h8, hsum⟩, ⟨hact, hs, hk, ha⟩, rfl⟩
    simp [hact, h8, hsum, hs, hk, ha]

/-! ## When the copy stays inside -/

/-- **The copy of `Hook_WriteFile`**: every packet it builds is in bounds exactly if the length and the header
fit in 32 bits, unless the system lets no packet be built. All of the last eight lengths fail only where the heap
grants 4 GiB: a real one refuses `1 + frame_len` bytes for all of them but `2 ^ 32 - 1`, for which the sum is 0. -/
theorem packet_inBounds_iff (e : SendEnv) (n frameLen : UInt32) (hn : 8 ≤ n.toNat) :
    (∀ p, writeFilePacket e n frameLen = some p → p.InBounds n) ↔
      frameLen.toNat + 8 < 2 ^ 32 ∨ ¬ e.Builds frameLen := by
  have h8 : UInt32.ofNat radminHeaderSize ≤ n := by
    rw [UInt32.le_iff_toNat_le, toNat_radminHeaderSize]
    exact hn
  constructor
  · intro h
    by_contra hcon
    obtain ⟨hwrap, hbuilds⟩ : 2 ^ 32 ≤ frameLen.toNat + 8 ∧ e.Builds frameLen := by
      rw [not_or, not_not] at hcon
      exact ⟨by omega, hcon.2⟩
    have hsum : frameLen + UInt32.ofNat radminHeaderSize ≤ n := by
      rw [UInt32.le_iff_toNat_le]
      exact (add_header_wraps hwrap).le.trans hn
    have hreads : radminHeaderSize + frameLen.toNat ≤ n.toNat :=
      (h _ (writeFilePacket_eq_some.2 ⟨⟨h8, hsum⟩, hbuilds, rfl⟩)).reads
    have hsize : radminHeaderSize = 8 := rfl
    have hlt := n.toNat_lt
    omega
  · rintro (hfit | hno) p hp
    · obtain ⟨⟨-, hsum⟩, -, rfl⟩ := writeFilePacket_eq_some.1 hp
      rw [add_header_le hfit] at hsum
      have halloc : (1 + frameLen).toNat = 1 + frameLen.toNat := by
        rw [UInt32.toNat_add, UInt32.toNat_one, Nat.mod_eq_of_lt (by omega)]
      exact ⟨by rw [Nat.add_comm]; exact hsum, halloc, halloc.ge⟩
    · exact absurd (writeFilePacket_eq_some.1 hp).2.1 hno

/-- A frame of one byte in a buffer of nine. -/
theorem packet_inBounds_one : writeFilePacket ⟨true, true, true, fun _ => true⟩ 9 1 = some ⟨2, 1, 8, 1⟩ ∧
    ∀ p, writeFilePacket ⟨true, true, true, fun _ => true⟩ 9 1 = some p → p.InBounds 9 :=
  ⟨by decide, (packet_inBounds_iff ⟨true, true, true, fun _ => true⟩ 9 1 (by decide)).2 (.inl (by decide))⟩

/-- A header without a frame, with the length `0xFFFFFFFF`. -/
def wrappingHeader : List UInt8 := [0, 0, 0, 0, 0xFF, 0xFF, 0xFF, 0xFF]

/-- A heap that hands out blocks of less than 2 GiB. -/
def heapBelow2G (size : UInt32) : Bool := decide (size < 0x80000000)

/-- The block has no byte at all, and 4294967295 bytes are copied from behind the buffer. -/
theorem packet_outOfBounds :
    writeFilePacket ⟨true, true, true, heapBelow2G⟩ (UInt32.ofNat wrappingHeader.length)
        (radminHeaderRead wrappingHeader) = some ⟨0, 1, 8, 0xFFFFFFFF⟩ ∧
      ¬ ∀ e n frameLen, 8 ≤ n.toNat → ∀ p, writeFilePacket e n frameLen = some p → p.InBounds n := by
  have hp : writeFilePacket ⟨true, true, true, heapBelow2G⟩ (UInt32.ofNat wrappingHeader.length)
      (radminHeaderRead wrappingHeader) = some ⟨0, 1, 8, 0xFFFFFFFF⟩ := by decide
  refine ⟨hp, fun h => ?_⟩
  have hreads : 8 + (0xFFFFFFFF : UInt32).toNat ≤ (UInt32.ofNat wrappingHeader.length).toNat :=
    (h _ _ _ (by decide) _ hp).reads
  exact absurd hreads (by decide)

/-! ## The hook -/

/-- `hookWriteFile` has no next state exactly if a packet whose copy leaves the buffer can be built. -/
theorem hookWriteFile_eq_none_iff {w : World} {h : Handle} {ctx : HandleContext} {buf : List UInt8}
    (hctx : getHandleContext w.handleList h = some ctx) (hlen : buf.length < 2 ^ 32) (ov : Option OvPtr)
    (src : Option SockAddr) :
    hookWriteFile w h buf ov src = none ↔
      ∃ p, writeFilePacket ⟨w.tapActive, true, true, fun _ => true⟩ (UInt32.ofNat buf.length)
        (radminHeaderRead buf) = some p ∧ ¬ p.src + p.len.toNat ≤ (UInt32.ofNat buf.length).toNat := by
  have hn : (UInt32.ofNat buf.length).toNat = buf.length := UInt32.toNat_ofNat_of_lt' hlen
  simp only [writeFilePacket_eq_some, SendEnv.Builds, hn]
  unfold hookWriteFile
  rw [hctx]
  dsimp only
  constructor
  · intro hnone
    split_ifs at hnone with hc hread
    exact ⟨_, ⟨hc.2, ⟨hc.1, trivial, trivial, trivial⟩, rfl⟩, hread⟩
  · rintro ⟨p, ⟨hc, ⟨hact, -⟩, rfl⟩, hread⟩
    rw [if_pos ⟨hact, hc⟩, if_neg hread]

end Rvpn
