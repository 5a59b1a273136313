import CIcap.Lib.CText

/-! # IP values of access lists

The operators of `types_ops.c` on `ci_ip_t`: `ip_dup` reads an address with an optional netmask, and
`ip_equal` and `ip_sockaddr_equal` compare a client's address with it. An address is a union whose
four 32-bit words hold an IPv6 address and whose first word holds an IPv4 address. The words are
taken in network order, so that `htonl` is the identity.

What a value is for is said in the space of IPv6 addresses, where an IPv4 address stands for its
mapped form: a client matches when it agrees with the address under the mask.
-/

namespace CIcap

open CText

/-! ## Agreement under a mask -/

/-- The bits of the mask are the same in both. -/
def AgreeOn {w : Nat} (m a b : BitVec w) : Prop := a &&& m = b &&& m

instance {w : Nat} (m a b : BitVec w) : Decidable (AgreeOn m a b) :=
  inferInstanceAs (Decidable (a &&& m = b &&& m))

namespace AgreeOn

variable {w v : Nat}

@[simp] theorem refl (m a : BitVec w) : AgreeOn m a a := rfl

@[simp] theorem ones (a b : BitVec w) : AgreeOn (BitVec.allOnes w) a b ↔ a = b := by
  simp [AgreeOn]

/-- Flipping all bits outside of a mask keeps the agreement. -/
theorem flip (m a : BitVec w) : AgreeOn m a (a ^^^ ~~~m) := by
  ext i hi
  grind

/-- Flipping the bits outside of `m` keeps the agreement under `n` only where `n` is part of `m`. -/
theorem le_of_flip {m n a : BitVec w} (h : AgreeOn n a (a ^^^ ~~~m)) : m &&& n = n := by
  ext i hi
  have hbit := congrArg (fun x => x.getLsbD i) h
  grind

/-- A mask is told from every other one by what agrees with an address under it. -/
theorem mask_eq_iff (a m n : BitVec w) : (∀ c, AgreeOn m a c ↔ AgreeOn n a c) ↔ m = n := by
  constructor
  · intro h
    have hn : m &&& n = n := le_of_flip ((h _).mp (flip m a))
    have hm : n &&& m = m := le_of_flip ((h _).mpr (flip n a))
    calc m = n &&& m := hm.symm
      _ = m &&& n := BitVec.and_comm n m
      _ = n := hn
  · rintro rfl c
    rfl

theorem append_inj (a c : BitVec w) (b d : BitVec v) : a ++ b = c ++ d ↔ a = c ∧ b = d := by
  constructor
  · intro h
    have hhigh := congrArg (fun x => x.extractLsb' v w) h
    have hlow := congrArg (fun x => x.setWidth v) h
    simp only [BitVec.setWidth_append_eq_right] at hlow
    simp only [BitVec.extractLsb'_append_eq_left] at hhigh
    exact ⟨hhigh, hlow⟩
  · rintro ⟨rfl, rfl⟩
    rfl

theorem append (m a c : BitVec w) (n b d : BitVec v) :
    AgreeOn (m ++ n) (a ++ b) (c ++ d) ↔ AgreeOn m a c ∧ AgreeOn n b d := by
  unfold AgreeOn
  rw [BitVec.and_append, BitVec.and_append, append_inj]

end AgreeOn

/-! ## Addresses -/

/-- `AF_INET`, `AF_INET6` -/
inductive Family
  | inet
  | inet6
deriving DecidableEq, Repr

/-- `ci_in_addr_t`: the words `ci_in6_addr_u32(addr)[i]`. -/
structure InAddr where
  u0 : BitVec 32
  u1 : BitVec 32
  u2 : BitVec 32
  u3 : BitVec 32
deriving DecidableEq, Repr

/-- `ci_ip_t` -/
structure CiIp where
  address : InAddr
  netmask : InAddr
  family : Family
deriving DecidableEq, Repr

/-- The family and the address of a `ci_sockaddr_t`. -/
structure SockAddr where
  sinFamily : Family
  sinAddr : InAddr
deriving DecidableEq, Repr

namespace InAddr

def zero : InAddr := ⟨0, 0, 0, 0⟩

/-- The union member `ipv4_addr.s_addr`. -/
def ipv4 (addr : InAddr) : BitVec 32 := addr.u0

/-- `ci_ipv4_inaddr_hostnetmask` -/
def ipv4Hostnetmask (addr : InAddr) : InAddr := { addr with u0 := 0xFFFFFFFF }

/-- `ci_ipv6_inaddr_hostnetmask` -/
def ipv6Hostnetmask : InAddr := ⟨0xFFFFFFFF, 0xFFFFFFFF, 0xFFFFFFFF, 0xFFFFFFFF⟩

/-- `ci_ipv6_inaddr_is_v4mapped` -/
def isV4mapped (addr : InAddr) : Bool := addr.u0 == 0 && addr.u1 == 0 && addr.u2 == 0xFFFF

/-- `ci_inaddr_ipv4_to_ipv6` -/
def ipv4ToIpv6 (addr : InAddr) : InAddr := ⟨0, 0, 0xFFFF, addr.ipv4⟩

/-- `ci_ipv4_inaddr_check_net` -/
def ipv4CheckNet (addr1 addr2 mask : InAddr) : Bool :=
  (addr1.ipv4 &&& mask.ipv4) == (addr2.ipv4 &&& mask.ipv4)

/-- `ci_ipv6_inaddr_check_net` -/
def ipv6CheckNet (addr1 addr2 mask : InAddr) : Bool :=
  (addr1.u0 &&& mask.u0) == (addr2.u0 &&& mask.u0)
    && (addr1.u1 &&& mask.u1) == (addr2.u1 &&& mask.u1)
    && (addr1.u2 &&& mask.u2) == (addr2.u2 &&& mask.u2)
    && (addr1.u3 &&& mask.u3) == (addr2.u3 &&& mask.u3)

/-- `ci_ipv4_in_ipv6_check_net` -/
def ipv4InIpv6CheckNet (addr1 addr2 mask : InAddr) : Bool :=
  addr2.u0 == 0 && addr2.u1 == 0 && addr2.u2 == 0xFFFF
    && (addr1.ipv4 &&& mask.ipv4) == (addr2.u3 &&& mask.ipv4)

/-- `ci_ipv6_in_ipv4_check_net` -/
def ipv6InIpv4CheckNet (addr1 addr2 mask : InAddr) : Bool :=
  addr1.u0 == 0 && addr1.u1 == 0 && addr1.u2 == 0xFFFF
    && (addr1.u3 &&& mask.ipv4) == (addr2.ipv4 &&& mask.ipv4)

end InAddr

/-! ## The operators -/

/-- `CI_IPLEN` -/
def ciIplen : Nat := 46

/-- `ip_dup`. `ciInetAton` is `inet_pton`: it writes the words of the family it is called with. -/
def ipDup (ciInetAton : Family → List UInt8 → Option InAddr) (value : List UInt8) : Option CiIp :=
  let socketFamily := if value.contains 58 then Family.inet6 else Family.inet
  if value.contains 47 then
    let strAddr := value.takeWhile (· != 47)
    if strAddr.length ≥ ciIplen then none
    else
      match ciInetAton socketFamily strAddr with
      | none => none
      | some address =>
        let strNetmask := ((value.dropWhile (· != 47)).drop 1).take ciIplen
        match ciInetAton socketFamily strNetmask with
        | none => none
        | some netmask => some ⟨address, netmask, socketFamily⟩
  else
    match ciInetAton socketFamily value with
    | none => none
    | some address =>
      -- a value without a netmask is the address of a host
      let netmask :=
        match socketFamily with
        | .inet => InAddr.zero.ipv4Hostnetmask
        | .inet6 => InAddr.ipv6Hostnetmask
      some ⟨address, netmask, socketFamily⟩

namespace CiIp

/-- The four comparisons that `ip_equal` and `ip_sockaddr_equal` share. -/
def checkNet (ipRef : CiIp) (family : Family) (address : InAddr) : Bool :=
  match family, ipRef.family with
  | .inet, .inet => ipRef.address.ipv4CheckNet address ipRef.netmask
  | .inet, .inet6 => ipRef.address.ipv6InIpv4CheckNet address ipRef.netmask
  | .inet6, .inet6 => ipRef.address.ipv6CheckNet address ipRef.netmask
  | .inet6, .inet => ipRef.address.ipv4InIpv6CheckNet address ipRef.netmask

end CiIp

/-- `ip_equal` -/
def ipEqual (ipRef : CiIp) : Option CiIp → Bool
  | none => false
  | some ipCheck => ipRef.checkNet ipCheck.family ipCheck.address

/-- `ip_sockaddr_equal` -/
def ipSockaddrEqual (ipRef : CiIp) : Option SockAddr → Bool
  | none => false
  | some ipCheck => ipRef.checkNet ipCheck.sinFamily ipCheck.sinAddr

/-! ## What a value is for -/

/-- The address in the space of IPv6 addresses. -/
def InAddr.full : Family → InAddr → BitVec (32 + (32 + (32 + 32)))
  | .inet, a => 0#32 ++ (0#32 ++ (0xFFFF#32 ++ a.ipv4))
  | .inet6, a => a.u0 ++ (a.u1 ++ (a.u2 ++ a.u3))

namespace CiIp

/-- The mask in that space: the part in front of an IPv4 address is compared as a whole. -/
def fullMask (ip : CiIp) : BitVec (32 + (32 + (32 + 32))) :=
  match ip.family with
  | .inet =>
    BitVec.allOnes 32 ++ (BitVec.allOnes 32 ++ (BitVec.allOnes 32 ++ ip.netmask.ipv4))
  | .inet6 => InAddr.full .inet6 ip.netmask

/-- The client's address agrees with the address of the value under its mask. -/
def Covers (ip : CiIp) (family : Family) (address : InAddr) : Prop :=
  AgreeOn ip.fullMask (ip.address.full ip.family) (address.full family)

instance (ip : CiIp) (family : Family) (address : InAddr) : Decidable (ip.Covers family address) :=
  inferInstanceAs (Decidable (AgreeOn _ _ _))

/-- The network of an IPv6 value has a mapped IPv4 address in it. -/
def HoldsMapped (ip : CiIp) : Prop :=
  AgreeOn ip.netmask.u0 ip.address.u0 0 ∧ AgreeOn ip.netmask.u1 ip.address.u1 0 ∧
    AgreeOn ip.netmask.u2 ip.address.u2 0xFFFF

instance (ip : CiIp) : Decidable ip.HoldsMapped :=
  inferInstanceAs (Decidable (_ ∧ _ ∧ _))

/-- An IPv4 client is compared as it should be with an IPv4 value, with a mapped address whose mask
has the same first and last word, and with an IPv6 network without mapped addresses. -/
def WellMasked (ip : CiIp) : Prop :=
  ip.family = .inet6 →
    if ip.address.isV4mapped then ip.netmask.u0 = ip.netmask.u3 else ¬ ip.HoldsMapped

instance (ip : CiIp) : Decidable ip.WellMasked :=
  inferInstanceAs (Decidable (ip.family = .inet6 →
    if ip.address.isV4mapped then ip.netmask.u0 = ip.netmask.u3 else ¬ ip.HoldsMapped))

/-! ## Each comparison -/

variable {ip : CiIp}

theorem covers_inet6_inet (hf : ip.family = .inet6) (a : InAddr) :
    ip.Covers .inet a ↔ ip.HoldsMapped ∧ AgreeOn ip.netmask.u3 ip.address.u3 a.ipv4 := by
  simp only [Covers, fullMask, hf, InAddr.full, AgreeOn.append, HoldsMapped, and_assoc]
  rfl

/-- An IPv4 value is compared with every client as it should be. -/
theorem checkNet_inet (hf : ip.family = .inet) (family : Family) (a : InAddr) :
    ip.checkNet family a = true ↔ ip.Covers family a := by
  cases family with
  | inet =>
    simp only [checkNet, hf, Covers, fullMask, InAddr.full, AgreeOn.append, AgreeOn.refl, true_and,
      InAddr.ipv4CheckNet, beq_iff_eq]
    rfl
  | inet6 =>
    simp only [checkNet, hf, Covers, fullMask, InAddr.full, AgreeOn.append, AgreeOn.ones,
      InAddr.ipv4InIpv6CheckNet, Bool.and_eq_true, beq_iff_eq, and_assoc]
    constructor
    · rintro ⟨h0, h1, h2, h3⟩
      exact ⟨h0.symm, h1.symm, h2.symm, h3⟩
    · rintro ⟨h0, h1, h2, h3⟩
      exact ⟨h0.symm, h1.symm, h2.symm, h3⟩

/-- An IPv6 value is compared with an IPv6 client as it should be. -/
theorem checkNet_inet6 (hf : ip.family = .inet6) (a : InAddr) :
    ip.checkNet .inet6 a = true ↔ ip.Covers .inet6 a := by
  simp only [checkNet, hf, Covers, fullMask, InAddr.full, AgreeOn.append, InAddr.ipv6CheckNet,
    Bool.and_eq_true, beq_iff_eq, and_assoc]
  rfl

/-- An IPv6 value is compared with an IPv4 client by the first word of its mask. -/
theorem checkNet_inet6_inet (hf : ip.family = .inet6) (a : InAddr) :
    ip.checkNet .inet a = true ↔
      ip.address.isV4mapped = true ∧ AgreeOn ip.netmask.u0 ip.address.u3 a.ipv4 := by
  simp [checkNet, hf, InAddr.ipv6InIpv4CheckNet, InAddr.isV4mapped, AgreeOn, InAddr.ipv4]

theorem holdsMapped_of_mapped (h : ip.address.isV4mapped = true) : ip.HoldsMapped := by
  obtain ⟨⟨h0, h1⟩, h2⟩ := by simpa [InAddr.isV4mapped] using h
  rw [HoldsMapped, h0, h1, h2]
  exact ⟨.refl _ _, .refl _ _, .refl _ _⟩

/-- IPv4 clients are compared with an IPv6 value as they should be exactly when it is well
masked. -/
theorem inet_clients_iff (hf : ip.family = .inet6) :
    (∀ a, ip.checkNet .inet a = true ↔ ip.Covers .inet a) ↔ ip.WellMasked := by
  simp only [checkNet_inet6_inet hf, covers_inet6_inet hf, WellMasked, hf, true_imp_iff]
  by_cases hmap : ip.address.isV4mapped = true
  · simp only [hmap, holdsMapped_of_mapped hmap, true_and]
    rw [← AgreeOn.mask_eq_iff ip.address.u3]
    -- every word is the IPv4 address of some client
    constructor
    · intro h c
      exact h ⟨c, 0, 0, 0⟩
    · intro h a
      exact h a.ipv4
  · simp only [hmap, Bool.false_eq_true, false_and, false_iff, not_and]
    constructor
    · intro h hin
      exact h ⟨ip.address.u3, 0, 0, 0⟩ hin (.refl _ _)
    · intro h a hin
      exact absurd hin h

/-! ## Matching -/

/-- Matching is agreement under the mask for every client, and does not change when an IPv4 client
is given in its mapped form, exactly when the value is well masked. -/
theorem ip_match_iff (ipRef : CiIp) : ((∀ ipCheck : CiIp,
        ipEqual ipRef (some ipCheck) = true ↔ ipRef.Covers ipCheck.family ipCheck.address) ∧
      (∀ client : SockAddr, ipSockaddrEqual ipRef (some client) = true ↔
          ipRef.Covers client.sinFamily client.sinAddr) ∧
      ∀ a : InAddr, ipSockaddrEqual ipRef (some ⟨.inet, a⟩) =
        ipSockaddrEqual ipRef (some ⟨.inet6, a.ipv4ToIpv6⟩)) ↔
      ipRef.WellMasked := by
  -- all three follow from the comparison with every family and address
  have hall : (∀ family a, ipRef.checkNet family a = true ↔ ipRef.Covers family a) ↔
      ipRef.WellMasked := by
    cases hf : ipRef.family with
    | inet => simp [WellMasked, hf, checkNet_inet hf]
    | inet6 =>
      rw [← inet_clients_iff hf]
      constructor
      · intro h a
        exact h .inet a
      · intro h family a
        cases family with
        | inet => exact h a
        | inet6 => exact checkNet_inet6 hf a
  rw [← hall]
  constructor
  · rintro ⟨-, hsock, -⟩ family a
    exact hsock ⟨family, a⟩
  · intro h
    refine ⟨fun c => h c.family c.address, fun c => h c.sinFamily c.sinAddr, fun a => ?_⟩
    rw [Bool.eq_iff_iff]
    calc ipRef.checkNet .inet a = true ↔ ipRef.Covers .inet a := h .inet a
      _ ↔ ipRef.Covers .inet6 a.ipv4ToIpv6 := Iff.rfl
      _ ↔ ipRef.checkNet .inet6 a.ipv4ToIpv6 = true := (h .inet6 _).symm

/-- The network `::ffff:10.0.0.0` with a mask of 120 bits does not match the client `10.0.0.5`,
which it matches as `::ffff:10.0.0.5`. -/
theorem mapped_network_missed : let address : InAddr := ⟨0, 0, 0xFFFF, 0x0A000000⟩
    let netmask : InAddr := ⟨0xFFFFFFFF, 0xFFFFFFFF, 0xFFFFFFFF, 0xFFFFFF00⟩
    let client : InAddr := ⟨0x0A000005, 0, 0, 0⟩
    let pton : Family → List UInt8 → Option InAddr := fun _ text =>
      if text = bytes "::ffff:10.0.0.0" then some address
      else if text = bytes "ffff:ffff:ffff:ffff:ffff:ffff:ffff:ff00" then some netmask
      else none
    ipDup pton (bytes "::ffff:10.0.0.0/ffff:ffff:ffff:ffff:ffff:ffff:ffff:ff00") =
        some ⟨address, netmask, .inet6⟩ ∧
      ipSockaddrEqual ⟨address, netmask, .inet6⟩ (some ⟨.inet, client⟩) = false ∧
      Covers ⟨address, netmask, .inet6⟩ .inet client ∧
      ipSockaddrEqual ⟨address, netmask, .inet6⟩ (some ⟨.inet6, client.ipv4ToIpv6⟩) = true := by
  decide +kernel

end CiIp

end CIcap
