import Rvpn.Device.Outbound
import Rvpn.Netsh.Mask

/-!
# What becomes of the TAP interface (linux_tap.c:70-200)

A control command ends in a handler of the bridge. Three of them go through `ioctl` on a socket opened for it, and two
hand a command line to the shell. Any of these calls may fail, and the handler then leaves what it has done so far.

| here | there |
| --- | --- |
| `Kernel`     | the descriptors of the bridge, the interface `ifname`, the command lines run |
| `Answers`    | what `socket` and the `ioctl`s of one handler answer |
| `handle…`    | the handlers behind their reads of `data` (`:79-200`) |
| `tapStep`    | a step of the application or of the bridge, with the handler it comes to |

* `interface_follows` — in every run of the two programs the settings arrive in the order in which they were sent, and of
  each kind the last one the kernel did not refuse is what the interface has; no descriptor is lost, and no flag but
  `IFF_UP` changes;
* `commands_harmless` — whatever the datagrams, the shell gets two kinds of command lines, whole; if the name of the
  interface is plain, each is one command, and the address in it one word of digits, letters up to `f`, dots, colons and
  slashes;
* `Harmless.plain` — with any other name it is not: the line goes to the shell with the name as it is.
-/

namespace Rvpn.Tap

open Lts Netsh

/-! ## The kernel's side -/

def IFF_UP : UInt16 := 1

/-- The interface `ifname`, with the flags that can be set. -/
structure Iface where
  addr : List UInt8
  mask : List UInt8
  hwaddr : List UInt8
  flags : UInt16
deriving DecidableEq

structure Kernel where
  /-- The open descriptors of the bridge. -/
  fds : List Nat
  iface : Iface
  /-- The command lines handed to `system`, in order. -/
  ran : List (List Char)

/-- What the calls of one handler answer. -/
structure Answers where
  /-- `socket(AF_INET, SOCK_DGRAM, 0)`. -/
  socket : Option Nat
  /-- Whether the first `ioctl` succeeds, and the second. -/
  ioctl : Bool × Bool

/-- What is outside the bridge: the name of its interface, the mask Linux gives a new address before it is told another
one, and `inet_ntop` for IPv6. -/
structure System where
  ifname : List Char
  natural : Iface → List UInt8 → List UInt8
  ntop6 : List UInt8 → List Char

/-! ## The handlers -/

/-- `get_iface_socket`. -/
def getIfaceSocket (x : Answers) (k : Kernel) : Option (Nat × Kernel) :=
  x.socket.map fun s => (s, { k with fds := s :: k.fds })

def close (s : Nat) (k : Kernel) : Kernel := { k with fds := k.fds.erase s }

/-- A setting request of `ioctl`, if it succeeds. -/
def request (ok : Bool) (f : Iface → Iface) (k : Kernel) : Option Kernel :=
  if ok then some { k with iface := f k.iface } else none

/-- `inet_ntoa`. -/
def inetNtoa (a : List UInt8) : List Char := ['.'].intercalate (a.map fun b => Nat.toDigits 10 b.toNat)

/-- `snprintf` into `char cmd[256]`, and `system(cmd)`. -/
def system (text : List Char) (k : Kernel) : Kernel := { k with ran := k.ran ++ [text.take 255] }

variable (S : System)

def handleSetIpv4 (addr : List UInt8) (pfx : UInt8) (x : Answers) (k : Kernel) : Option Kernel :=
  match getIfaceSocket x k with
  | none => some k
  | some (s, k) =>
    match request x.ioctl.1 (fun i => { i with addr, mask := S.natural i addr }) k with
    | none => some (close s k)
    | some k =>
      (netmask pfx).map fun mask =>
        match request x.ioctl.2 (fun i => { i with mask := mask.toList }) k with
        | none => close s k
        | some k => close s k

/-- `"… %s dev %s 2>/dev/null"`. -/
def commandLine (pre : String) (word : List Char) : List Char :=
  pre.toList ++ word ++ " dev ".toList ++ S.ifname ++ " 2>/dev/null".toList

def routeCommand (gw : List UInt8) : List Char := commandLine S "ip route replace default via " (inetNtoa gw)

def handleSetIpv4Gw (gw : List UInt8) (k : Kernel) : Kernel := system (routeCommand S gw) k

def addrCommand (addr : List UInt8) (pfx : UInt8) : List Char :=
  commandLine S "ip -6 addr replace " (S.ntop6 addr ++ '/' :: Nat.toDigits 10 pfx.toNat)

def handleSetIpv6 (addr : List UInt8) (pfx : UInt8) (k : Kernel) : Kernel := system (addrCommand S addr pfx) k

def handleSetMac (mac : List UInt8) (x : Answers) (k : Kernel) : Kernel :=
  match getIfaceSocket x k with
  | none => k
  | some (s, k) =>
    match request x.ioctl.1 (fun i => { i with hwaddr := mac }) k with
    | none => close s k
    | some k => close s k

/-- `SIOCGIFFLAGS`, and `SIOCSIFFLAGS` with the flags changed. -/
def changeFlags (f : UInt16 → UInt16) (x : Answers) (k : Kernel) : Kernel :=
  match getIfaceSocket x k with
  | none => k
  | some (s, k) =>
    if x.ioctl.1 then
      match request x.ioctl.2 (fun i => { i with flags := f k.iface.flags }) k with
      | none => close s k
      | some k => close s k
    else close s k

def handleLinkUp : Answers → Kernel → Kernel := changeFlags (· ||| IFF_UP)
def handleLinkDown : Answers → Kernel → Kernel := changeFlags (· &&& ~~~IFF_UP)

/-- The handler of a command; `none` is the undefined shift of `handle_set_ipv4`. -/
def handle (k : Kernel) : IfaceChange × Answers → Option Kernel
  | (.setIpv4 addr pfx, x) => handleSetIpv4 S addr pfx x k
  | (.setIpv4Gw gw, _) => some (handleSetIpv4Gw S gw k)
  | (.setIpv6 addr pfx, _) => some (handleSetIpv6 S addr pfx k)
  | (.setMac mac, x) => some (handleSetMac mac x k)
  | (.linkUp, x) => some (handleLinkUp x k)
  | (.linkDown, x) => some (handleLinkDown x k)

/-! ## What each handler leaves -/

variable {S} {k k' : Kernel} {x : Answers} {c : IfaceChange × Answers} {done : List (IfaceChange × Answers)}

/-- The calls of the handler succeed up to the first request, and up to the second. -/
def Answers.first (x : Answers) : Bool := x.socket.isSome && x.ioctl.1
def Answers.second (x : Answers) : Bool := x.first && x.ioctl.2

theorem handleSetIpv4_eq (addr : List UInt8) (pfx : UInt8) : handleSetIpv4 S addr pfx x k =
    if x.first then (netmask pfx).map fun mask =>
      { k with iface := { k.iface with addr, mask := if x.second then mask.toList else S.natural k.iface addr } }
    else some k := by
  obtain ⟨sock, ok, ok'⟩ := x
  cases sock <;> cases ok <;> cases ok' <;>
    simp [handleSetIpv4, getIfaceSocket, request, close, Answers.first, Answers.second]

theorem handleSetMac_eq (mac : List UInt8) :
    handleSetMac mac x k = { k with iface := if x.first then { k.iface with hwaddr := mac } else k.iface } := by
  obtain ⟨sock, ok, ok'⟩ := x
  cases sock <;> cases ok <;> simp [handleSetMac, getIfaceSocket, request, close, Answers.first]

theorem changeFlags_eq (f : UInt16 → UInt16) :
    changeFlags f x k = { k with iface := if x.second then { k.iface with flags := f k.iface.flags } else k.iface } := by
  obtain ⟨sock, ok, ok'⟩ := x
  cases sock <;> cases ok <;> cases ok' <;>
    simp [changeFlags, getIfaceSocket, request, close, Answers.first, Answers.second]

/-- The command line of a change, if it has one. -/
def commandOf (S : System) : IfaceChange → Option (List Char)
  | .setIpv4Gw gw => some (routeCommand S gw)
  | .setIpv6 addr pfx => some (addrCommand S addr pfx)
  | _ => none

/-- The address and the mask a `SET_IPV4` sets; the mask stays what the kernel makes it where it cannot be set. -/
def ipv4Set : IfaceChange × Answers → Option (List UInt8 × Option (List UInt8))
  | (.setIpv4 addr pfx, x) => if x.first then some (addr, if x.second then (netmask pfx).map Vector.toList else none) else none
  | _ => none

def macSet : IfaceChange × Answers → Option (List UInt8)
  | (.setMac mac, x) => if x.first then some mac else none
  | _ => none

/-- Whether the link is set up or down. -/
def linkSet : IfaceChange × Answers → Option Bool
  | (.linkUp, x) => if x.second then some true else none
  | (.linkDown, x) => if x.second then some false else none
  | _ => none

def Iface.up (i : Iface) : Bool := i.flags &&& IFF_UP ≠ 0

/-- Everything a handler does to the kernel's side. -/
structure Handled (S : System) (k : Kernel) (c : IfaceChange × Answers) (k' : Kernel) : Prop where
  fds : k'.fds = k.fds
  ran : k'.ran = k.ran ++ ((commandOf S c.1).map (List.take 255)).toList
  hwaddr : k'.iface.hwaddr = (macSet c).getD k.iface.hwaddr
  addr : k'.iface.addr = ((ipv4Set c).map Prod.fst).getD k.iface.addr
  mask : ∀ a o, ipv4Set c = some (a, o) → ∀ m ∈ o, k'.iface.mask = m
  kept : ipv4Set c = none → k'.iface.mask = k.iface.mask
  up : k'.iface.up = (linkSet c).getD k.iface.up
  flags : k'.iface.flags &&& ~~~IFF_UP = k.iface.flags &&& ~~~IFF_UP

theorem iff_up_ne_zero : IFF_UP ≠ 0 := by decide

theorem or_up (f : UInt16) : (f ||| IFF_UP) &&& IFF_UP = IFF_UP := by
  apply UInt16.toBitVec_inj.1
  ext i hi
  simp
  grind

theorem or_others (f : UInt16) : (f ||| IFF_UP) &&& ~~~IFF_UP = f &&& ~~~IFF_UP := by
  apply UInt16.toBitVec_inj.1
  ext i hi
  simp
  grind

theorem handled_linkUp (x : Answers) : Handled S k (.linkUp, x) (handleLinkUp x k) := by
  rw [handleLinkUp, changeFlags_eq]
  cases hx : x.second with
  | false => constructor <;> simp [commandOf, macSet, ipv4Set, linkSet, hx]
  | true => constructor <;> simp [commandOf, macSet, ipv4Set, linkSet, hx, Iface.up, or_up, or_others, iff_up_ne_zero]

theorem handled_linkDown (x : Answers) : Handled S k (.linkDown, x) (handleLinkDown x k) := by
  rw [handleLinkDown, changeFlags_eq]
  cases hx : x.second with
  | false => constructor <;> simp [commandOf, macSet, ipv4Set, linkSet, hx]
  | true => constructor <;> simp [commandOf, macSet, ipv4Set, linkSet, hx, Iface.up, UInt16.and_assoc]

theorem handled_setMac (mac : List UInt8) (x : Answers) : Handled S k (.setMac mac, x) (handleSetMac mac x k) := by
  rw [handleSetMac_eq]
  cases hx : x.first with
  | false => constructor <;> simp [commandOf, macSet, ipv4Set, linkSet, hx]
  | true => constructor <;> simp [commandOf, macSet, ipv4Set, linkSet, hx, Iface.up]

theorem handled_setIpv4 {addr : List UInt8} {pfx : UInt8} (h : handleSetIpv4 S addr pfx x k = some k') :
    Handled S k (.setIpv4 addr pfx, x) k' := by
  rw [handleSetIpv4_eq] at h
  cases hx : x.first with
  | false =>
    rw [hx, if_neg Bool.false_ne_true, Option.some.injEq] at h
    subst h
    constructor <;> simp [commandOf, macSet, ipv4Set, linkSet, hx]
  | true =>
    rw [hx, if_pos rfl, Option.map_eq_some_iff] at h
    obtain ⟨mask, hmask, rfl⟩ := h
    cases hx' : x.second with
    | false => constructor <;> simp [commandOf, macSet, ipv4Set, linkSet, hx, hx', Iface.up]
    | true => constructor <;> simp [commandOf, macSet, ipv4Set, linkSet, hx, hx', hmask, Iface.up]

theorem handled (h : handle S k c = some k') : Handled S k c k' := by
  obtain ⟨c, x⟩ := c
  cases c with
  | setIpv4 addr pfx => exact handled_setIpv4 h
  | setIpv4Gw gw =>
    cases h
    constructor <;> simp [commandOf, macSet, ipv4Set, linkSet, handleSetIpv4Gw, system]
  | setIpv6 addr pfx =>
    cases h
    constructor <;> simp [commandOf, macSet, ipv4Set, linkSet, handleSetIpv6, system]
  | setMac mac =>
    cases h
    exact handled_setMac mac x
  | linkUp =>
    cases h
    exact handled_linkUp x
  | linkDown =>
    cases h
    exact handled_linkDown x

/-! ## What a list of commands leaves -/

/-- The last value a list of settings has, or the one from before. -/
def last {B : Type} (f : IfaceChange × Answers → Option B) (b : B) (done : List (IfaceChange × Answers)) : B :=
  (done.filterMap f).getLast?.getD b

/-- **Last writer wins**, for each kind of setting on its own. -/
structure Follows (k : Kernel) (done : List (IfaceChange × Answers)) (k' : Kernel) : Prop where
  fds : k'.fds = k.fds
  hwaddr : k'.iface.hwaddr = last macSet k.iface.hwaddr done
  addr : k'.iface.addr = (last ipv4Set (k.iface.addr, some k.iface.mask) done).1
  mask : ∀ m ∈ (last ipv4Set (k.iface.addr, some k.iface.mask) done).2, k'.iface.mask = m
  up : k'.iface.up = last linkSet k.iface.up done
  flags : k'.iface.flags &&& ~~~IFF_UP = k.iface.flags &&& ~~~IFF_UP

theorem follows (hr : run (handle S) k done = some k') : Follows k done k' where
  fds := run_invariant (I := fun j => j.fds = k.fds) (fun _ _ _ hj h => (handled h).fds.trans hj) rfl hr
  flags := run_invariant (I := fun j => j.iface.flags &&& ~~~IFF_UP = k.iface.flags &&& ~~~IFF_UP)
    (fun _ _ _ hj h => (handled h).flags.trans hj) rfl hr
  hwaddr := by
    refine run_last (Q := fun b (j : Kernel) => j.iface.hwaddr = b) (fun j c j' b hc h => ?_) (fun j c j' b hc h hj => ?_) rfl hr
    · rw [(handled h).hwaddr, hc, Option.getD_some]
    · rw [(handled h).hwaddr, hc, Option.getD_none, hj]
  up := by
    refine run_last (Q := fun b (j : Kernel) => j.iface.up = b) (fun j c j' b hc h => ?_) (fun j c j' b hc h hj => ?_) rfl hr
    · rw [(handled h).up, hc, Option.getD_some]
    · rw [(handled h).up, hc, Option.getD_none, hj]
  addr := by
    refine run_last (Q := fun (b : List UInt8 × Option (List UInt8)) (j : Kernel) => j.iface.addr = b.1)
      (fun j c j' b hc h => ?_) (fun j c j' b hc h hj => ?_) rfl hr
    · rw [(handled h).addr, hc, Option.map_some, Option.getD_some]
    · rw [(handled h).addr, hc, Option.map_none, Option.getD_none, hj]
  mask := by
    refine run_last (Q := fun (b : List UInt8 × Option (List UInt8)) (j : Kernel) => ∀ m ∈ b.2, j.iface.mask = m)
      (fun j c j' b hc h => ?_) (fun j c j' b hc h hj m hm => ?_) (fun m hm => Option.some.inj hm) hr
    · exact (handled h).mask b.1 b.2 hc
    · rw [(handled h).kept hc, hj m hm]

/-! ## Runs of the two programs -/

variable {w w' : World} {a : Act} {as : List (Act × Answers)} {b b' : Bridge} {r : RoundIn} {is : List (RoundIn × Answers)}

def changed : Effect → Option IfaceChange
  | .change c => some c
  | .frame _ => none

/-- The setting a step of the two programs comes to. -/
def changeOf (w : World) : Act → Option IfaceChange
  | .poll i => (i.roundIn w.wire).bind fun r => (round w.bridge r).change
  | _ => none

/-- The handler behind a round, if there is one. -/
def handleIf (S : System) (k : Kernel) (x : Answers) : Option IfaceChange → Option Kernel
  | none => some k
  | some c => handle S k (c, x)

/-- A step of the two programs, with the answers for its handler. -/
def tapStep (S : System) (s : World × Kernel) (a : Act × Answers) : Option (World × Kernel) :=
  (step s.1 a.1).bind fun w => (handleIf S s.2 a.2 (changeOf s.1 a.1)).map (Prod.mk w)

/-- The settings a step executes. -/
def settings (s : World × Kernel) (a : Act × Answers) : List (IfaceChange × Answers) :=
  ((changeOf s.1 a.1).map fun c => (c, a.2)).toList

theorem changed_served : (served w a).filterMap changed = (changeOf w a).toList := by
  cases a with
  | poll i =>
    cases hr : i.roundIn w.wire with
    | none => simp [served, changeOf, hr]
    | some r =>
      have hframes : ((round w.bridge r).writes.map Effect.frame).filterMap changed = [] := by simp [changed]
      cases hc : (round w.bridge r).change <;> simp [served, changeOf, hr, RoundOut.effects, hc, hframes, changed]
  | _ => rfl

theorem run_handleIf {x : Answers} {o : Option IfaceChange} :
    run (handle S) k (o.map fun c => (c, x)).toList = handleIf S k x o := by
  cases o with
  | none => rfl
  | some c =>
    cases h : handle S k (c, x) with
    | none => simp [run, handleIf, h]
    | some k' => simp [run, handleIf, h]

theorem run_tapStep {s s' : World × Kernel} (hr : run (tapStep S) s as = some s') :
    run step s.1 (as.map Prod.fst) = some s'.1 ∧
      run (handle S) s.2 (Refine.performed (tapStep S) settings s as) = some s'.2 ∧
      (Refine.performed (tapStep S) settings s as).map Prod.fst =
        (Refine.performed step served s.1 (as.map Prod.fst)).filterMap changed := by
  induction as generalizing s with
  | nil =>
    cases hr
    exact ⟨rfl, rfl, rfl⟩
  | cons a as ih =>
    obtain ⟨u, hu, hr⟩ := run_cons.1 hr
    obtain ⟨hrun, hhandle, hmap⟩ := ih hr
    obtain ⟨w, hw, hk⟩ := Option.bind_eq_some_iff.1 (show (step s.1 a.1).bind _ = some u from hu)
    obtain ⟨k, hone, rfl⟩ := Option.map_eq_some_iff.1 hk
    refine ⟨run_cons.2 ⟨w, hw, hrun⟩, ?_, ?_⟩
    · rw [Refine.performed, hu, run_append]
      exact ⟨k, run_handleIf.trans hone, hhandle⟩
    · simp only [Refine.performed, hu, List.map_cons, hw, List.map_append, List.filterMap_append, hmap, changed_served]
      cases hc : changeOf s.1 a.1 <;> simp [settings, hc]

/-- **The interface follows the application.** In every run of the two programs from the start, the settings the bridge
has executed, and behind them those still on the wire, are those the application has sent, in order; and what the
interface has of each kind is what the last one executed without an error set. -/
theorem interface_follows {tapActive : Bool} {ov : OvPtr → Overlapped} {buf : RxBuf} (ha : ∀ a ∈ as, a.1.Callable)
    (hr : run (tapStep S) (World.init tapActive ov buf, k) as = some (w, k')) :
    (Refine.performed (tapStep S) settings (World.init tapActive ov buf, k) as).map Prod.fst ++
        (w.wire.flatMap fun x => effectsOf x.2).filterMap changed =
      (Refine.performed step taken (World.init tapActive ov buf) (as.map Prod.fst)).filterMap changed ∧
    Follows k (Refine.performed (tapStep S) settings (World.init tapActive ov buf, k) as) k' := by
  obtain ⟨hrun, hhandle, hmap⟩ := run_tapStep hr
  have hstart : WholeArgs (World.init tapActive ov buf) := fun x hx => by cases hx
  have hg : Guarded step (fun _ a => a.Callable) (World.init tapActive ov buf) (as.map Prod.fst) :=
    guarded_of_forall fun a hmem => by
      obtain ⟨x, hx, rfl⟩ := List.mem_map.1 hmem
      exact ha x hx
  have hfifo := Refine.performed_fifo (I := WholeArgs) (fun _ _ _ hw ha hs => step_fifo hw ha hs) hg hstart hrun
  exact ⟨by rw [hmap, ← List.filterMap_append, hfifo]; rfl, follows hhandle⟩

/-! ## The command lines -/

/-- What the texts of addresses are made of. -/
def addrChar (ch : Char) : Bool := ch.isDigit || ('a' ≤ ch && ch ≤ 'f') || ch = ':' || ch = '.' || ch = '/'

/-- The characters that stand for themselves in the shell wherever they are; every other one may be an operator, a
quote, an expansion, a pattern, a comment or the end of a word. -/
def shellPlain (ch : Char) : Bool := ch.isAlphanum || "_-.,:/@+".toList.contains ch

/-- The words of a line of plain words: the shell runs it as one command with them. `none` is any other line. -/
def plainWords (line : List Char) : Option (List (List Char)) :=
  let ws := (line.splitOn ' ').filter (· ≠ [])
  if ws.all fun t => t.all shellPlain then some ws else none

/-- The name of the interface, `inet_ntop` as it is documented, and what is asked of whoever names the interface. -/
structure System.Documented (S : System) : Prop where
  /-- `IFNAMSIZ` with the terminating zero. -/
  short : S.ifname.length < 16
  /-- The kernel would take other names, with `;` in them for example; the bridge puts them into its command lines
  as they are. -/
  plain : S.ifname ≠ [] ∧ ∀ ch ∈ S.ifname, shellPlain ch
  /-- `INET6_ADDRSTRLEN` with the terminating zero. -/
  ntop6 : ∀ addr, (S.ntop6 addr).length < 46 ∧ ∀ ch ∈ S.ntop6 addr, addrChar ch

/-- The line is one command, its errors redirected: the words of the program, one word of an address, and the
interface. -/
structure Harmless (S : System) (line : List Char) : Prop where
  words : ∃ pre ∈ [["ip", "route", "replace", "default", "via"], ["ip", "-6", "addr", "replace"]], ∃ addr body : List Char,
    line = body ++ " 2>/dev/null".toList ∧
      plainWords body = some (pre.map String.toList ++ [addr, "dev".toList, S.ifname]) ∧ ∀ ch ∈ addr, addrChar ch

/-- Only a plain name gives a harmless line. -/
theorem Harmless.plain {line : List Char} (h : Harmless S line) : ∀ ch ∈ S.ifname, shellPlain ch := by
  obtain ⟨pre, -, addr, body, -, hwords, -⟩ := h.words
  simp only [plainWords] at hwords
  split_ifs at hwords with hall
  rw [Option.some.inj hwords] at hall
  have hname := List.all_eq_true.1 hall S.ifname (by simp)
  exact List.all_eq_true.1 hname

theorem isDigit_addrChar {ch : Char} (h : ch.isDigit) : addrChar ch := by simp [addrChar, h]

theorem length_octetText (o : UInt8) : (Nat.toDigits 10 o.toNat).length ≤ 3 :=
  (Nat.length_toDigits_le_iff (by decide) (by decide)).2 (Nat.lt_of_lt_of_le o.toNat_lt (by decide))

theorem addrChar_octetText (o : UInt8) : ∀ ch ∈ Nat.toDigits 10 o.toNat, addrChar ch := fun _ h =>
  isDigit_addrChar (Nat.isDigit_of_mem_toDigits (by decide) (by decide) h)

theorem addrChar_inetNtoa (gw : List UInt8) : ∀ ch ∈ inetNtoa gw, addrChar ch := by
  intro ch hch
  induction gw with
  | nil => simp [inetNtoa] at hch
  | cons o gw ih =>
    cases gw with
    | nil =>
      simp [inetNtoa] at hch
      exact addrChar_octetText o ch hch
    | cons o' gw =>
      simp [inetNtoa] at hch
      rcases hch with h | rfl | h
      · exact addrChar_octetText o ch h
      · decide
      · exact ih (by simpa [inetNtoa] using h)

/-- A dotted quad, as `ip` reads it. -/
def readQuad (t : List Char) : List Nat := (t.splitOn '.').map fun d => Nat.ofDigitChars 10 d 0

theorem readQuad_inetNtoa {gw : List UInt8} (hne : gw ≠ []) : readQuad (inetNtoa gw) = gw.map UInt8.toNat := by
  have hdot : ∀ t ∈ gw.map fun o => Nat.toDigits 10 o.toNat, '.' ∉ t := by
    intro t ht hmem
    obtain ⟨o, -, rfl⟩ := List.mem_map.1 ht
    exact absurd (Nat.isDigit_of_mem_toDigits (by decide) (by decide) hmem) (by decide)
  rw [readQuad, inetNtoa, List.splitOn_intercalate '.' hdot (by simpa using hne), List.map_map]
  exact List.map_congr_left fun o _ => Nat.ofDigitChars_ten_toDigits

theorem length_inetNtoa {gw : List UInt8} (h : gw.length = 4) : (inetNtoa gw).length ≤ 15 := by
  match gw, h with
  | [o₀, o₁, o₂, o₃], _ =>
    have h₀ := length_octetText o₀
    have h₁ := length_octetText o₁
    have h₂ := length_octetText o₂
    have h₃ := length_octetText o₃
    simp [inetNtoa]
    omega

theorem intercalate_append {sep y : List Char} {ys : List (List Char)} : ∀ {xs : List (List Char)}, xs ≠ [] →
    sep.intercalate (xs ++ y :: ys) = sep.intercalate xs ++ (sep ++ sep.intercalate (y :: ys))
  | [x], _ => by simp
  | x :: x' :: xs, _ => by
    rw [List.cons_append, List.cons_append, List.intercalate_cons_cons, List.intercalate_cons_cons, ← List.cons_append,
      intercalate_append (List.cons_ne_nil x' xs)]
    simp only [List.append_assoc]

theorem shellPlain_addrChar {ch : Char} (h : addrChar ch) : shellPlain ch := by
  simp only [addrChar, Bool.or_eq_true, Bool.and_eq_true, decide_eq_true_eq] at h
  rcases h with (((h | h) | rfl) | rfl) | rfl
  · simp [shellPlain, Char.isAlphanum, h]
  · have hlower : ch.isLower = true :=
      Bool.and_eq_true_iff.2 ⟨decide_eq_true h.1, decide_eq_true (Char.le_trans h.2 (by decide))⟩
    have halpha : ch.isAlpha = true := Bool.or_eq_true_iff.2 (.inr hlower)
    simp [shellPlain, Char.isAlphanum, halpha]
  · decide
  · decide
  · decide

/-- **The shell's words** of a command line of the bridge. -/
theorem plainWords_commandLine (hS : S.Documented) (pre : String) (ws : List String) {word : List Char} (hne : ws ≠ [])
    (hpre : pre.toList = [' '].intercalate (ws.map String.toList) ++ [' '])
    (hws : ∀ t ∈ ws, t.toList ≠ [] ∧ t.toList.all shellPlain) (hword : word ≠ [] ∧ ∀ ch ∈ word, addrChar ch) :
    ∃ body, commandLine S pre word = body ++ " 2>/dev/null".toList ∧
      plainWords body = some (ws.map String.toList ++ [word, "dev".toList, S.ifname]) := by
  have hdev : " dev ".toList = ' ' :: ("dev".toList ++ [' ']) := by decide
  have hbody : pre.toList ++ word ++ " dev ".toList ++ S.ifname =
      [' '].intercalate (ws.map String.toList ++ [word, "dev".toList, S.ifname]) := by
    rw [intercalate_append (by simpa using hne), hpre, hdev]
    simp only [List.intercalate_cons_cons, List.intercalate_singleton, List.append_assoc, List.cons_append,
      List.nil_append]
  have hplain : ∀ t ∈ ws.map String.toList ++ [word, "dev".toList, S.ifname], t ≠ [] ∧ t.all shellPlain := by
    intro t ht
    rcases List.mem_append.1 ht with ht | ht
    · obtain ⟨u, hu, rfl⟩ := List.mem_map.1 ht
      exact hws u hu
    · simp only [List.mem_cons, List.not_mem_nil, or_false] at ht
      rcases ht with rfl | rfl | rfl
      · exact ⟨hword.1, List.all_eq_true.2 fun ch hch => shellPlain_addrChar (hword.2 ch hch)⟩
      · decide
      · exact ⟨hS.plain.1, List.all_eq_true.2 hS.plain.2⟩
  have hblank : ∀ t ∈ ws.map String.toList ++ [word, "dev".toList, S.ifname], ' ' ∉ t := by
    intro t ht hmem
    have := List.all_eq_true.1 (hplain t ht).2 _ hmem
    revert this
    decide
  refine ⟨_, rfl, ?_⟩
  rw [hbody, plainWords, List.splitOn_intercalate ' ' hblank (by simp),
    List.filter_eq_self.2 fun t ht => by simpa using (hplain t ht).1]
  exact if_pos (List.all_eq_true.2 fun t ht => (hplain t ht).2)

theorem inetNtoa_ne_nil {gw : List UInt8} (hne : gw ≠ []) : inetNtoa gw ≠ [] := by
  cases gw with
  | nil => exact absurd rfl hne
  | cons o gw =>
    intro h
    rw [inetNtoa, List.map_cons] at h
    cases gw with
    | nil =>
      rw [List.map_nil, List.intercalate_singleton] at h
      exact Nat.toDigits_ne_nil h
    | cons o' gw =>
      rw [List.map_cons, List.intercalate_cons_cons, List.append_assoc, List.append_eq_nil_iff] at h
      exact Nat.toDigits_ne_nil h.1

theorem harmless_route (hS : S.Documented) {gw : List UInt8} (hne : gw ≠ []) : Harmless S (routeCommand S gw) := by
  obtain ⟨body, hline, hwords⟩ := plainWords_commandLine hS "ip route replace default via "
    ["ip", "route", "replace", "default", "via"] (by simp) (by decide) (by decide)
    ⟨inetNtoa_ne_nil hne, addrChar_inetNtoa gw⟩
  exact ⟨_, List.mem_cons_self, inetNtoa gw, body, hline, hwords, addrChar_inetNtoa gw⟩

theorem harmless_addr (hS : S.Documented) (addr : List UInt8) (pfx : UInt8) : Harmless S (addrCommand S addr pfx) := by
  have hword : ∀ ch ∈ S.ntop6 addr ++ '/' :: Nat.toDigits 10 pfx.toNat, addrChar ch := by
    intro ch hch
    rcases List.mem_append.1 hch with h | h
    · exact (hS.ntop6 addr).2 ch h
    · rcases List.mem_cons.1 h with rfl | h
      · decide
      · exact addrChar_octetText pfx ch h
  obtain ⟨body, hline, hwords⟩ := plainWords_commandLine hS "ip -6 addr replace " ["ip", "-6", "addr", "replace"]
    (by simp) (by decide) (by decide) ⟨by simp, hword⟩
  exact ⟨_, List.mem_cons_of_mem _ List.mem_cons_self, _, body, hline, hwords, hword⟩

theorem length_commandLine (hS : S.Documented) {pre : String} {word : List Char} (hpre : pre.length ≤ 29)
    (hword : word.length ≤ 49) : (commandLine S pre word).length ≤ 255 := by
  have hshort := hS.short
  have hdev : " dev ".toList.length = 5 := by decide
  have hnull : " 2>/dev/null".toList.length = 12 := by decide
  simp only [commandLine, List.length_append, hdev, hnull, String.length_toList]
  omega

/-! ## The bridge on any datagrams -/

/-- The addresses of a change have their lengths. -/
def Sized : IfaceChange → Prop
  | .setIpv4Gw gw => gw.length = 4
  | _ => True

/-- The command lines come whole from `snprintf`. -/
theorem commandOf_whole (hS : S.Documented) {c : IfaceChange} (hc : Sized c) :
    (commandOf S c).map (List.take 255) = commandOf S c := by
  cases c with
  | setIpv4Gw gw =>
    have hlen := length_inetNtoa hc
    have hall : (routeCommand S gw).length ≤ 255 := length_commandLine hS (by decide) (by omega)
    rw [commandOf, Option.map_some, List.take_of_length_le hall]
  | setIpv6 addr pfx =>
    have haddr := (hS.ntop6 addr).1
    have hpfx := length_octetText pfx
    have hall : (addrCommand S addr pfx).length ≤ 255 := length_commandLine hS (by decide) (by
      simp only [List.length_append, List.length_cons]
      omega)
    rw [commandOf, Option.map_some, List.take_of_length_le hall]
  | _ => rfl

theorem commandOf_harmless (hS : S.Documented) {c : IfaceChange} (hc : Sized c) {cmd : List Char}
    (h : commandOf S c = some cmd) : Harmless S cmd := by
  cases c <;> cases h
  · exact harmless_route hS (List.ne_nil_of_length_eq_add_one hc)
  · exact harmless_addr hS _ _

theorem sized_dispatch {cmd : UInt8} {data : List UInt8} {c : IfaceChange} (hlen : 4 ≤ data.length)
    (h : dispatch cmd data = some c) : Sized c := by
  obtain ⟨t, -, rfl⟩ := Option.map_eq_some_iff.1 h
  cases t <;> simp [Sized, Rvpn.handleSetIpv4, Rvpn.handleSetIpv4Gw, Rvpn.handleSetIpv6, Rvpn.handleSetMac]
  omega

theorem length_read (buf : RxBuf) (off n : Nat) : (buf.read off n).length = min n (bufSize - off) := by
  rw [RxBuf.read, List.length_take, List.length_drop, buf.length_eq]

theorem sized_round {c : IfaceChange} (h : (round b r).change = some c) : Sized c := by
  unfold round at h
  split at h
  · cases h
  · rcases htap : tapToUdp b r with ⟨b₁, sends, flow⟩
    rw [htap] at h
    cases flow with
    | fall =>
      replace h : (udpToTap b₁ r).2.2.1 = some c := h
      unfold udpToTap at h
      split at h
      · cases h
      · cases h
      · dsimp only at h
        split_ifs at h
        · exact sized_dispatch (by rw [length_read]; decide) h
        · split at h <;> cases h
    | cont => cases h
    | brk => cases h

/-- A round of the bridge, with the answers for the handler. -/
def bridgeStep (S : System) (s : Bridge × Kernel) (i : RoundIn × Answers) : Option (Bridge × Kernel) :=
  if (round s.1 i.1).goesOn then (handleIf S s.2 i.2 (round s.1 i.1).change).map (Prod.mk (round s.1 i.1).st) else none

/-- The change of a round. -/
def roundChange (s : Bridge × Kernel) (i : RoundIn × Answers) : List IfaceChange := (round s.1 i.1).change.toList

theorem bridgeStep_ran (hS : S.Documented) {s s' : Bridge × Kernel} {i : RoundIn × Answers} (h : bridgeStep S s i = some s') :
    s'.2.ran = s.2.ran ++ (roundChange s i).filterMap (commandOf S) ∧ ∀ c ∈ roundChange s i, Sized c := by
  unfold bridgeStep at h
  split_ifs at h
  obtain ⟨k, hk, rfl⟩ := Option.map_eq_some_iff.1 h
  cases hc : (round s.1 i.1).change with
  | none =>
    rw [hc] at hk
    cases hk
    simp [roundChange, hc]
  | some c =>
    rw [hc] at hk
    have hsized := sized_round hc
    refine ⟨?_, by simpa [roundChange, hc] using hsized⟩
    rw [(handled hk).ran, commandOf_whole hS hsized, roundChange, hc]
    cases hcmd : commandOf S c <;> simp [hcmd]

theorem run_bridgeStep (hS : S.Documented) {s s' : Bridge × Kernel} (hr : run (bridgeStep S) s is = some s') :
    s'.2.ran = s.2.ran ++ (Refine.performed (bridgeStep S) roundChange s is).filterMap (commandOf S) ∧
      ∀ c ∈ Refine.performed (bridgeStep S) roundChange s is, Sized c := by
  induction is generalizing s with
  | nil =>
    cases hr
    simp [Refine.performed]
  | cons i is ih =>
    obtain ⟨u, hu, hr⟩ := run_cons.1 hr
    obtain ⟨hran, hsized⟩ := bridgeStep_ran hS hu
    obtain ⟨hrest, hall⟩ := ih hr
    simp only [Refine.performed, hu, List.filterMap_append]
    refine ⟨by rw [hrest, hran, List.append_assoc], fun c hc => ?_⟩
    rcases List.mem_append.1 hc with hc | hc
    · exact hsized c hc
    · exact hall c hc

/-- **Harmless command lines.** In every run of the bridge on a plainly named interface, whatever the datagrams, the
command lines are those of the changes, in order and whole. To the shell each is one command, of the words of the
program, one word with an address and the interface, and the gateway reads back as the four bytes of its datagram. -/
theorem commands_harmless (hS : S.Documented) (hr : run (bridgeStep S) (b, k) is = some (b', k')) :
    k'.ran = k.ran ++ (Refine.performed (bridgeStep S) roundChange (b, k) is).filterMap (commandOf S) ∧
    (∀ cmd ∈ (Refine.performed (bridgeStep S) roundChange (b, k) is).filterMap (commandOf S), Harmless S cmd) ∧
    ∀ gw, .setIpv4Gw gw ∈ Refine.performed (bridgeStep S) roundChange (b, k) is →
      readQuad (inetNtoa gw) = gw.map UInt8.toNat := by
  obtain ⟨hran, hsized⟩ := run_bridgeStep hS hr
  refine ⟨hran, fun cmd hcmd => ?_, fun gw hgw => readQuad_inetNtoa ?_⟩
  · obtain ⟨c, hmem, hc⟩ := List.mem_filterMap.1 hcmd
    exact commandOf_harmless hS (hsized c hmem) hc
  · have hlen : gw.length = 4 := hsized _ hgw
    exact List.ne_nil_of_length_eq_add_one hlen

/-! ## A run -/

/-- `tap0`, and addresses of class A. -/
def tapSystem : System := ⟨"tap0".toList, fun _ _ => [255, 0, 0, 0], fun _ => "fdfd::1".toList⟩

theorem tapSystem_documented : tapSystem.Documented where
  short := by decide
  plain := ⟨by decide, List.all_eq_true.1 (by decide : "tap0".toList.all shellPlain = true)⟩
  ntop6 := fun _ => ⟨(by decide : "fdfd::1".toList.length < 46),
    List.all_eq_true.1 (by decide : "fdfd::1".toList.all addrChar = true)⟩

def tapKernel : Kernel := ⟨[3, 4], ⟨[0, 0, 0, 0], [0, 0, 0, 0], [2, 0, 0, 0, 0, 1], 0x1002⟩, []⟩

/-- The address is set, and the flags of the link are refused. -/
def addressThenLink : List (Act × Answers) :=
  [(.control .setIpv4 [26, 1, 2, 3, 16] ⟨0x0100007F, 40000⟩, ⟨none, true, true⟩),
    (.control .linkUp [] ⟨0x0100007F, 40001⟩, ⟨none, true, true⟩),
    (.poll .datagram, ⟨some 5, true, true⟩), (.poll .datagram, ⟨some 5, true, false⟩)]

theorem interface_follows_addressThenLink : ∃ w k',
    run (tapStep tapSystem) (World.init true (fun _ => ⟨0, 0⟩) (RxBuf.filled 0), tapKernel) addressThenLink =
      some (w, k') ∧
    k'.fds = [3, 4] ∧ k'.iface.addr = [26, 1, 2, 3] ∧ k'.iface.mask = [255, 255, 0, 0] ∧ k'.iface.up = false := by
  have hcall : ∀ a ∈ addressThenLink, a.1.Callable := by
    simp only [addressThenLink, List.forall_mem_cons]
    exact ⟨rfl, rfl, trivial, trivial, by simp⟩
  have hsome : (run (tapStep tapSystem) (World.init true (fun _ => ⟨0, 0⟩) (RxBuf.filled 0), tapKernel)
      addressThenLink).isSome := by rfl
  obtain ⟨⟨w, k'⟩, hr⟩ := Option.isSome_iff_exists.1 hsome
  obtain ⟨-, h⟩ := interface_follows hcall hr
  exact ⟨w, k', hr, h.fds, h.addr.trans rfl, h.mask _ rfl, h.up.trans rfl⟩

theorem commands_harmless_gateway : ∃ b' k',
    run (bridgeStep tapSystem) (Bridge.init (RxBuf.filled 0), tapKernel)
      [(.datagram ⟨0x0100007F, 40000⟩ (tapClientSetIPv4Gateway #v[26, 0, 0, 1]) fun f => .ok f.length,
        ⟨none, true, true⟩)] = some (b', k') ∧
    k'.ran = ["ip route replace default via 26.0.0.1 dev tap0 2>/dev/null".toList] ∧
    readQuad (inetNtoa [26, 0, 0, 1]) = [26, 0, 0, 1] := by
  obtain ⟨⟨b', k'⟩, hr⟩ := Option.isSome_iff_exists.1
    (show (run (bridgeStep tapSystem) (Bridge.init (RxBuf.filled 0), tapKernel)
      [(.datagram ⟨0x0100007F, 40000⟩ (tapClientSetIPv4Gateway #v[26, 0, 0, 1]) fun f => .ok f.length,
        ⟨none, true, true⟩)]).isSome by rfl)
  obtain ⟨hran, -, hread⟩ := commands_harmless tapSystem_documented hr
  exact ⟨b', k', hr, hran.trans (by decide +kernel), hread [26, 0, 0, 1] (by decide +kernel)⟩

end Rvpn.Tap
