import Rvpn.Bridge.Exits

/-!
# What a control datagram acts on (linux_tap.c:324-346)

The handlers read their argument from the shared buffer, whatever the length of the datagram:
`datalen` is computed and logged only. So a datagram with the whole argument acts through its own
bytes, and one that is cut short acts through what earlier traffic left behind it.

* `change_of_long`, `change_of_short` — the change is a function of the datagram, or of the stale bytes;
* `control_iff` — non-interference and "a short datagram changes nothing" hold of a datagram exactly
  when it is not short.
-/

namespace Rvpn

/-- A control datagram whose payload is shorter than the argument of its command. -/
def ShortArgs (d : List UInt8) : Prop :=
  ∃ c args, d = 0x01 :: TapCtrl.code c :: args ∧ args.length < c.argLen

/-- The round comes to its UDP part and receives `d`. -/
def Receives (i : RoundIn) (d : List UInt8) : Prop :=
  ReachesUdp i ∧ ∃ src, i.udp = some (.ok (src, d))

/-- **Non-interference**: after any two runs, `d` executes the same interface change. -/
def SameChange (d : List UInt8) : Prop :=
  ∀ buf₁ buf₂ is₁ is₂ b₁ b₂ i₁ i₂, loop (Bridge.init buf₁) is₁ = .running b₁ →
    loop (Bridge.init buf₂) is₂ = .running b₂ → Receives i₁ d → Receives i₂ d →
    (round b₁ i₁).change = (round b₂ i₂).change

/-- If `d` is a control datagram with too short a payload, it changes nothing after any run. -/
def ShortChangesNothing (d : List UInt8) : Prop :=
  ShortArgs d → ∀ buf is b i, loop (Bridge.init buf) is = .running b → Receives i d → (round b i).change = none

/-! ## The change as a function of the buffer -/

variable {b : Bridge} {i : RoundIn} {d : List UInt8}

/-- The buffer when the round comes to its UDP part. -/
def bufAtUdp (b : Bridge) (i : RoundIn) : RxBuf := (tapToUdp b i).1.buf

/-- A round that receives a datagram does what its UDP part does with it. -/
theorem round_udp (h : Receives i d) : (round b i).change = (udpToTap (tapToUdp b i).1 i).2.2.1 ∧
    (round b i).writes = (udpToTap (tapToUdp b i).1 i).2.1 := by
  obtain ⟨⟨hp, ht⟩, -⟩ := h
  have hfall : (tapToUdp b i).2.2 = .fall := tapToUdp_fall_iff.2 ht
  rcases hr : tapToUdp b i with ⟨b', sends, flow⟩
  rw [hr] at hfall
  obtain rfl := hfall
  rw [round_of_fall hp hr]
  exact ⟨rfl, rfl⟩

theorem change_of_control {cmd : UInt8} {args : List UInt8} (h : Receives i (0x01 :: cmd :: args)) :
    (round b i).change =
      dispatch cmd (((bufAtUdp b i).put 0 (0x01 :: cmd :: args)).read 2 (bufSize - 2)) := by
  obtain ⟨src, hu⟩ := h.2
  rw [(round_udp h).1, udpToTap_control hu, bufAtUdp]

/-- Only a control datagram with a command byte can change the interface. -/
theorem change_of_noControl (h : Receives i d) (hd : ∀ cmd args, d ≠ 0x01 :: cmd :: args) :
    (round b i).change = none := by
  obtain ⟨src, hu⟩ := h.2
  rw [(round_udp h).1]
  cases d with
  | nil => rw [udpToTap_nil hu]
  | cons t f =>
    by_cases h0 : t = 0x00
    · subst h0
      rw [udpToTap_frame hu]
    · by_cases h1 : t = 0x01
      · subst h1
        cases f with
        | nil => rw [udpToTap_noCmd hu]
        | cons cmd args => exact absurd rfl (hd cmd args)
      · rw [udpToTap_other hu h0 h1]

/-- Reading a prefix of a window of the buffer. -/
theorem RxBuf.take_read (b : RxBuf) (off : Nat) {k n : Nat} (h : k ≤ n) : (b.read off n).take k = b.read off k := by
  rw [RxBuf.read, RxBuf.read, List.take_take, Nat.min_eq_left h]

theorem argLen_le (c : TapCtrl) : c.argLen ≤ 17 := by
  cases c <;> decide

/-- **With the whole argument**, the change is a function of the datagram alone. -/
theorem change_of_long {cmd : UInt8} {args : List UInt8} (h : Receives i (0x01 :: cmd :: args))
    (hl : ¬ ShortArgs (0x01 :: cmd :: args)) : (round b i).change = dispatch cmd args := by
  rw [change_of_control h]
  apply dispatch_congr
  intro c hc
  have hcmd := TapCtrl.code_of_ofCode hc
  have hle : c.argLen ≤ args.length := by
    by_contra hn
    exact hl ⟨c, args, by rw [hcmd], by omega⟩
  have hc17 := argLen_le c
  have hsize : bufSize = 2048 := rfl
  rw [RxBuf.take_read _ _ (by omega), RxBuf.read_put_zero _ (by simp only [List.length_cons]; omega)]
  rfl

/-- The last byte of the argument. -/
def lastArg (c : TapCtrl) (data : List UInt8) : Option UInt8 := data[c.argLen - 1]?

/-- Executing a command tells the last byte its handler read. -/
theorem lastArg_of_dispatch {c : TapCtrl} {data data' : List UInt8} (hc : 0 < c.argLen)
    (hl : c.argLen ≤ data.length) (hl' : c.argLen ≤ data'.length)
    (h : dispatch c.code data = dispatch c.code data') : lastArg c data = lastArg c data' := by
  have hget : ∀ (l : List UInt8) k, k < l.length → l[k]? = some (l.getD k 0) := by
    intro l k hk
    rw [List.getD_eq_getElem?_getD, List.getElem?_eq_getElem hk]
    rfl
  have htake : ∀ n k, k < n → data.take n = data'.take n → data[k]? = data'[k]? := by
    intro n k hk he
    have := congrArg (fun l : List UInt8 => l[k]?) he
    simpa only [List.getElem?_take_of_lt hk] using this
  unfold dispatch at h
  rw [TapCtrl.ofCode_code, Option.map_some, Option.map_some, Option.some.injEq] at h
  unfold lastArg
  cases c with
  | setIpv4 =>
    obtain ⟨-, h⟩ := IfaceChange.setIpv4.inj h
    rw [TapCtrl.argLen, hget _ _ hl, hget _ _ hl', h]
  | setIpv4Gw => exact htake 4 3 (by decide) (IfaceChange.setIpv4Gw.inj h)
  | setIpv6 =>
    obtain ⟨-, h⟩ := IfaceChange.setIpv6.inj h
    rw [TapCtrl.argLen, hget _ _ hl, hget _ _ hl', h]
  | setMac => exact htake 6 5 (by decide) (IfaceChange.setMac.inj h)
  | linkUp => cases hc
  | linkDown => cases hc

/-- **With a short argument**, the handler's last byte is a stale one: what the buffer held behind the datagram. -/
theorem lastArg_stale (c : TapCtrl) {args : List UInt8} (hs : args.length < c.argLen) (buf : RxBuf) :
    lastArg c ((buf.put 0 (0x01 :: c.code :: args)).read 2 (bufSize - 2)) = buf.bytes[c.argLen + 1]? := by
  have hc17 := argLen_le c
  have hsize : bufSize = 2048 := rfl
  unfold lastArg RxBuf.read
  rw [List.getElem?_take_of_lt (by omega), List.getElem?_drop, RxBuf.getElem?_put _ _ _ (by omega),
    if_pos (by simp only [List.length_cons]; omega)]
  congr 1
  omega

/-! ## Traffic that fills the buffer -/

/-- A datagram of 2048 bytes of an unknown type; the bridge logs it and goes on. -/
def filler (x : UInt8) : RoundIn :=
  .datagram ⟨0x0100007F, 40000⟩ (List.replicate bufSize x) fun _ => .ok 0

theorem loop_filler (b : Bridge) {x : UInt8} (h0 : x ≠ 0x00) (h1 : x ≠ 0x01) :
    ∃ b', loop b [filler x] = .running b' ∧ ∀ k < bufSize, b'.buf.bytes[k]? = some x := by
  have hrep : List.replicate bufSize x = x :: List.replicate (bufSize - 1) x := rfl
  have hu : (filler x).udp = some (.ok (⟨0x0100007F, 40000⟩, x :: List.replicate (bufSize - 1) x)) := rfl
  have hround : loop b [filler x] = .running (b.receive ⟨0x0100007F, 40000⟩ (List.replicate bufSize x)) := by
    rw [loop, round_of_fall rfl (tapToUdp_none rfl), udpToTap_other hu h0 h1, hrep]
    rfl
  refine ⟨_, hround, ?_⟩
  intro k hk
  rw [Bridge.receive, RxBuf.getElem?_put _ _ _ hk, if_neg (by simp; omega), Nat.sub_zero,
    List.getElem?_replicate, if_pos hk]

/-- A round in which `d` arrives and nothing else. -/
theorem receives_datagram (src : SockAddr) (d : List UInt8) (w : List UInt8 → Except Errno Nat) :
    Receives (.datagram src d w) d := ⟨⟨rfl, .inl rfl⟩, src, rfl⟩

theorem bufAtUdp_datagram (b : Bridge) (src : SockAddr) (d : List UInt8) (w : List UInt8 → Except Errno Nat) :
    bufAtUdp b (.datagram src d w) = b.buf := rfl

/-- **The leak**: after two runs with different traffic, a short control datagram executes two
different changes. -/
theorem short_leaks (buf : RxBuf) (h : ShortArgs d) : ∃ b₁ b₂ i,
    loop (Bridge.init buf) [filler 2] = .running b₁ ∧ loop (Bridge.init buf) [filler 3] = .running b₂ ∧
    Receives i d ∧ (round b₁ i).change ≠ none ∧ (round b₁ i).change ≠ (round b₂ i).change := by
  obtain ⟨c, args, rfl, hs⟩ := h
  obtain ⟨b₁, h₁, hb₁⟩ := loop_filler (Bridge.init buf) (x := 2) (by decide) (by decide)
  obtain ⟨b₂, h₂, hb₂⟩ := loop_filler (Bridge.init buf) (x := 3) (by decide) (by decide)
  have hrec := receives_datagram ⟨0x0100007F, 40000⟩ (0x01 :: c.code :: args) fun _ => .ok 0
  have hc17 := argLen_le c
  have hsize : bufSize = 2048 := rfl
  have hread : ∀ x : RxBuf, c.argLen ≤ (x.read 2 (bufSize - 2)).length := by
    intro x
    rw [RxBuf.read, List.length_take, List.length_drop, x.length_eq]
    omega
  refine ⟨b₁, b₂, _, h₁, h₂, hrec, ?_, ?_⟩
  · rw [change_of_control hrec]
    simp [dispatch]
  · rw [change_of_control hrec, change_of_control hrec, bufAtUdp_datagram, bufAtUdp_datagram]
    intro he
    have hlast := lastArg_of_dispatch (by omega) (hread _) (hread _) he
    rw [lastArg_stale c hs, lastArg_stale c hs, hb₁ _ (by omega), hb₂ _ (by omega)] at hlast
    cases hlast

/-! ## The characterisation -/

/-- **A control datagram acts only through its own bytes, and a short one changes nothing**, exactly
when it is not short. -/
theorem control_iff (d : List UInt8) : SameChange d ∧ ShortChangesNothing d ↔ ¬ ShortArgs d := by
  constructor
  · rintro ⟨hsame, -⟩ hs
    obtain ⟨b₁, b₂, i, h₁, h₂, hrec, -, hne⟩ := short_leaks (RxBuf.filled 0) hs
    exact hne (hsame _ _ _ _ b₁ b₂ i i h₁ h₂ hrec hrec)
  · intro hl
    refine ⟨?_, fun hs => absurd hs hl⟩
    intro buf₁ buf₂ is₁ is₂ b₁ b₂ i₁ i₂ _ _ hr₁ hr₂
    by_cases hd : ∃ cmd args, d = 0x01 :: cmd :: args
    · obtain ⟨cmd, args, rfl⟩ := hd
      rw [change_of_long hr₁ hl, change_of_long hr₂ hl]
    · have hno : ∀ cmd args, d ≠ 0x01 :: cmd :: args := fun cmd args he => hd ⟨cmd, args, he⟩
      rw [change_of_noControl hr₁ hno, change_of_noControl hr₂ hno]

/-- `SET_IPV4` without an argument: the address and the prefix it sets are those of earlier traffic. -/
theorem control_leaks : ∃ b₁ b₂ i,
    loop (Bridge.init (RxBuf.filled 0)) [filler 2] = .running b₁ ∧
    loop (Bridge.init (RxBuf.filled 0)) [filler 3] = .running b₂ ∧ Receives i [0x01, 0x01] ∧
    (round b₁ i).change ≠ none ∧ (round b₁ i).change ≠ (round b₂ i).change :=
  short_leaks (RxBuf.filled 0) ⟨.setIpv4, [], rfl, by decide⟩

end Rvpn
