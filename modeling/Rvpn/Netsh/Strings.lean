import Rvpn.Netsh.Command

/-!
# The address texts and their 16-byte buffers (emulate_driver_running.c:5175-5189, 5293-5307, 5358-5360)

`ParseNetshCommand` keeps up to 63 characters of the address, the mask and the gateway; the two adapter hooks read them
through buffers of 16 bytes.

* `stringsFit_iff` — the texts are dotted quads throughout exactly in the runs whose commands only have dotted quads in
  these three places.
-/

namespace Rvpn.Netsh

open Registry (WChar WStr wide)

/-- **The strings fit their consumers.** -/
structure StringsFit (W : Winsock) (g : Globals) : Prop where
  quads : ∀ s ∈ [g.fakeIpAddress, g.fakeIpSubnet, g.fakeGateway], (dottedQuad s).isSome ∧ s.length ≤ 15
  /-- The three conversions and copies of `Hook_GetAdaptersInfo` stay in their buffers. -/
  info : (hookGetAdaptersInfo W g).isSome
  /-- The three conversions of `Hook_GetAdaptersAddresses` are complete. -/
  addresses : ∀ s ∈ [g.fakeIpAddress, g.fakeIpSubnet, g.fakeGateway], (readIPv4 W s).isSome

/-- The address (where it is stored as an IPv4 address), the mask and the gateway of the command are dotted quads. -/
structure QuadArgs (cmd : WStr) : Prop where
  address : ∀ a, argument cmd (addressKey cmd) = some a → storedAsIPv6 cmd (a.take 63) = false → (dottedQuad a).isSome
  mask : ∀ m, argument cmd (wide "mask=") = some m → (dottedQuad m).isSome
  gateway : ∀ gw, argument cmd (wide "gateway=") = some gw → (dottedQuad gw).isSome

/-- The globals after a sequence of commands. -/
def after (W : Winsock) (C : Crt) (g : Globals) (cmds : List WStr) : Globals :=
  cmds.foldl (fun g cmd => (parseNetshCommand W C g cmd).1) g

variable {W : Winsock} {C : Crt} {cmd s : WStr} {g : Globals}

/-! ## Dotted quads in buffers -/

theorem ascii_of_octet {n : UInt8} (h : octet s = some n) : ∀ c ∈ s, c.1.toNat < 128 := by
  intro c hc
  obtain ⟨-, ds, hds, -⟩ := Decimal.numeral_eq_some.1 (octet_eq_some.1 h).1
  obtain ⟨d, hd⟩ := Decimal.digit_of_mem hds hc
  unfold asciiDigit at hd
  split at hd
  · omega
  · cases hd

theorem ascii_of_dottedQuad {o : Vector UInt8 4} (h : dottedQuad s = some o) : ∀ c ∈ s, c.1.toNat < 128 := by
  obtain ⟨a, b, c, d, rfl, ha, hb, hc, hd⟩ := dottedQuad_text h
  intro x hx
  have hdot : dot.1.toNat < 128 := by decide
  simp only [List.mem_append, List.mem_cons] at hx
  rcases hx with hx | rfl | hx | rfl | hx | rfl | hx
  · exact ascii_of_octet ha x hx
  · exact hdot
  · exact ascii_of_octet hb x hx
  · exact hdot
  · exact ascii_of_octet hc x hx
  · exact hdot
  · exact ascii_of_octet hd x hx

/-- A dotted quad fits a buffer of 16 bytes. -/
theorem convert_of_dottedQuad (h : (dottedQuad s).isSome) :
    ∃ t, wideCharToMultiByte W s 16 = some t ∧ t.length + 1 ≤ 16 := by
  obtain ⟨o, ho⟩ := Option.isSome_iff_exists.1 h
  have hlen : (W.acp s).length + 1 ≤ 16 := by
    have := length_of_dottedQuad ho
    rw [W.acp_ascii s (ascii_of_dottedQuad ho), List.length_map]
    omega
  exact ⟨_, if_pos hlen, hlen⟩

theorem stringsFit_of_quads (h : ∀ s ∈ [g.fakeIpAddress, g.fakeIpSubnet, g.fakeGateway], (dottedQuad s).isSome) :
    StringsFit W g := by
  refine ⟨fun s hs => ⟨h s hs, ?_⟩, ?_, fun s hs => ?_⟩
  · obtain ⟨o, ho⟩ := Option.isSome_iff_exists.1 (h s hs)
    exact length_of_dottedQuad ho
  · obtain ⟨ip, hip, hip'⟩ := convert_of_dottedQuad (W := W) (h g.fakeIpAddress (by simp))
    obtain ⟨mask, hmask, hmask'⟩ := convert_of_dottedQuad (W := W) (h g.fakeIpSubnet (by simp))
    obtain ⟨gw, hgw, hgw'⟩ := convert_of_dottedQuad (W := W) (h g.fakeGateway (by simp))
    simp only [hookGetAdaptersInfo, hip, hmask, hgw, strcpyAddress, if_pos hip', if_pos hmask', if_pos hgw',
      Option.bind_eq_bind, Option.bind_some, Option.isSome_some]
  · obtain ⟨t, ht, -⟩ := convert_of_dottedQuad (W := W) (h s hs)
    simp [readIPv4, ht]

/-- Cutting a text at 63 characters makes no dotted quad and loses none. -/
theorem dottedQuad_take (s : WStr) : (dottedQuad (s.take 63)).isSome ↔ (dottedQuad s).isSome := by
  by_cases hs : s.length ≤ 63
  · rw [List.take_of_length_le hs]
  · constructor
    · intro h
      obtain ⟨o, ho⟩ := Option.isSome_iff_exists.1 h
      have := length_of_dottedQuad ho
      rw [List.length_take] at this
      omega
    · intro h
      obtain ⟨o, ho⟩ := Option.isSome_iff_exists.1 h
      have := length_of_dottedQuad ho
      omega

/-! ## One command -/

/-- What a command stores in the three texts. -/
theorem texts_parseNetshCommand (W : Winsock) (C : Crt) (g : Globals) (cmd : WStr) :
    (parseNetshCommand W C g cmd).1.fakeIpAddress =
      (match argument cmd (addressKey cmd) with
        | some a => if storedAsIPv6 cmd (a.take 63) then g.fakeIpAddress else a.take 63
        | none => g.fakeIpAddress) ∧
    (parseNetshCommand W C g cmd).1.fakeIpSubnet = ((argument cmd (wide "mask=")).map (List.take 63)).getD g.fakeIpSubnet ∧
    (parseNetshCommand W C g cmd).1.fakeGateway =
      ((argument cmd (wide "gateway=")).map (List.take 63)).getD g.fakeGateway := by
  refine ⟨?_, ?_, ?_⟩
  · simp only [parseNetshCommand, store_fakeIpAddress, parseNetshConfig, parseField_eq]
    cases argument cmd (addressKey cmd) with
    | none => rfl
    | some a =>
      simp only [Option.map_some, Globals.storeAddress]
      split <;> rfl
  · simp only [parseNetshCommand, Globals.store, parseNetshConfig, parseField_eq]
  · simp only [parseNetshCommand, Globals.store, parseNetshConfig, parseField_eq]

/-- A text that may be replaced by an argument. -/
theorem getD_isSome {arg : Option WStr} {old : WStr} (hold : (dottedQuad old).isSome) :
    (dottedQuad ((arg.map (List.take 63)).getD old)).isSome ↔ ∀ s, arg = some s → (dottedQuad s).isSome := by
  cases arg with
  | none => simp [hold]
  | some s => simp [dottedQuad_take]

/-- **The step lemma**: from texts that fit, the command leads to texts that fit exactly if its arguments are dotted
quads. -/
theorem stringsFit_step (hg : StringsFit W g) : StringsFit W (parseNetshCommand W C g cmd).1 ↔ QuadArgs cmd := by
  obtain ⟨hip, hmask, hgw⟩ := texts_parseNetshCommand W C g cmd
  have hoIp := (hg.quads g.fakeIpAddress (by simp)).1
  have hoMask := (hg.quads g.fakeIpSubnet (by simp)).1
  have hoGw := (hg.quads g.fakeGateway (by simp)).1
  have hip' : (dottedQuad (parseNetshCommand W C g cmd).1.fakeIpAddress).isSome ↔ ∀ a, argument cmd (addressKey cmd) = some a →
      storedAsIPv6 cmd (a.take 63) = false → (dottedQuad a).isSome := by
    rw [hip]
    cases argument cmd (addressKey cmd) with
    | none => simp [hoIp]
    | some a => cases hs : storedAsIPv6 cmd (a.take 63) <;> simp [hs, hoIp, dottedQuad_take]
  have hmask' : (dottedQuad (parseNetshCommand W C g cmd).1.fakeIpSubnet).isSome ↔
      ∀ m, argument cmd (wide "mask=") = some m → (dottedQuad m).isSome := by
    rw [hmask]
    exact getD_isSome hoMask
  have hgw' : (dottedQuad (parseNetshCommand W C g cmd).1.fakeGateway).isSome ↔
      ∀ gw, argument cmd (wide "gateway=") = some gw → (dottedQuad gw).isSome := by
    rw [hgw]
    exact getD_isSome hoGw
  constructor
  · intro h
    exact ⟨hip'.1 (h.quads _ (by simp)).1, hmask'.1 (h.quads _ (by simp)).1, hgw'.1 (h.quads _ (by simp)).1⟩
  · intro h
    apply stringsFit_of_quads
    intro s hs
    simp only [List.mem_cons, List.not_mem_nil, or_false] at hs
    rcases hs with rfl | rfl | rfl
    · exact hip'.2 h.address
    · exact hmask'.2 h.mask
    · exact hgw'.2 h.gateway

/-! ## Runs -/

theorem stringsFit_after (hg : StringsFit W g) (cmds : List WStr) :
    (∀ pre, pre <+: cmds → StringsFit W (after W C g pre)) ↔ ∀ cmd ∈ cmds, QuadArgs cmd := by
  induction cmds generalizing g with
  | nil =>
    simp only [List.prefix_nil, forall_eq, List.not_mem_nil, false_imp_iff, implies_true, iff_true]
    exact hg
  | cons cmd cmds ih =>
    have hpre : (∀ pre, pre <+: cmd :: cmds → StringsFit W (after W C g pre)) ↔
        ∀ pre, pre <+: cmds → StringsFit W (after W C (parseNetshCommand W C g cmd).1 pre) := by
      constructor
      · intro h pre hp
        exact h (cmd :: pre) (List.cons_prefix_cons.2 ⟨rfl, hp⟩)
      · intro h pre hp
        cases pre with
        | nil => exact hg
        | cons c pre =>
          obtain ⟨rfl, hpre⟩ := List.cons_prefix_cons.1 hp
          exact h pre hpre
    rw [hpre, List.forall_mem_cons]
    constructor
    · intro h
      have h0 : StringsFit W (parseNetshCommand W C g cmd).1 := h [] (List.nil_prefix)
      exact ⟨(stringsFit_step hg).1 h0, (ih h0).1 h⟩
    · rintro ⟨hc, hcs⟩
      exact (ih ((stringsFit_step hg).2 hc)).2 hcs

theorem stringsFit_init : StringsFit W .init := by
  apply stringsFit_of_quads
  intro s hs
  simp only [List.mem_cons, List.not_mem_nil, or_false] at hs
  rcases hs with rfl | rfl | rfl <;> decide

/-- **The adapter strings fit throughout exactly when the commands only have dotted quads in them.** -/
theorem stringsFit_iff (W : Winsock) (C : Crt) (cmds : List WStr) :
    (∀ pre, pre <+: cmds → StringsFit W (after W C .init pre)) ↔ ∀ cmd ∈ cmds, QuadArgs cmd :=
  stringsFit_after stringsFit_init cmds

/-- A gateway given by name, 24 characters long. -/
def namedGatewayCommand : WStr := wide "interface ip set address gateway=gateway.radmin-vpn.local"

/-- `fake_gateway` is no dotted quad after this command, and does not fit the buffers of the hooks. -/
theorem gateway_overruns : ¬ StringsFit asciiWinsock (after asciiWinsock asciiCrt .init [namedGatewayCommand]) := by
  intro h
  have hinfo : hookGetAdaptersInfo asciiWinsock (after asciiWinsock asciiCrt .init [namedGatewayCommand]) = none := by
    decide +kernel
  have := h.info
  rw [hinfo] at this
  cases this

end Rvpn.Netsh
