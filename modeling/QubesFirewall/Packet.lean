import QubesFirewall.Translate

/-! # What a rule list means for a packet

    The first-match meaning both backends are checked against.  A packet of a family has a
    protocol, a destination address, a destination port exactly when its protocol is `tcp`
    or `udp`, and an ICMP type exactly when its protocol is the family's ICMP.  A rule
    matches a packet when every option it carries holds of it: `proto` names the protocol
    (`icmp` read as `icmpv6` for IPv6), `dst4`/`dst6` is a prefix holding the destination,
    `dsthost` resolves to it, `dstports` (`N` or `N-M`) holds the port, `icmptype` is the
    ICMP type, and `specialtarget=dns` asks for `tcp` or `udp` to port 53 of a nameserver.
    The verdict of a rule list is the action of its first matching rule.

    Which addresses a prefix holds is left open (`inPrefix prefix address`): the laws only
    ask that a prefix with the family's full-host mask holds its own address and no other.
-/

namespace QubesFirewall

/-! ## Section 1: Packets -/

/-- The protocol name of ICMP in a family. -/
def icmpName : Family → Str
  | .four => key "icmp"
  | .six => key "icmpv6"

/-- A packet of a family, as a filter rule sees it. -/
structure Packet (family : Family) where
  proto : Str
  dst : Str
  port : Option Nat
  icmpType : Option Str
  port_iff : port.isSome ↔ proto = key "tcp" ∨ proto = key "udp"
  icmp_iff : icmpType.isSome ↔ proto = icmpName family

/-- A packet with a port is a `tcp` or `udp` packet. -/
theorem Packet.tcp_or_udp {family : Family} (pkt : Packet family) {p : Nat}
    (h : pkt.port = some p) : pkt.proto = key "tcp" ∨ pkt.proto = key "udp" :=
  pkt.port_iff.1 (by rw [h]; rfl)

/-! ## Section 2: Port ranges -/

/-- The number a decimal text names. -/
def decimal (s : Str) : Nat := s.foldl (fun n c => 10 * n + (c.toNat - 48)) 0

/-- The ports a text names, its ends separated by `sep`: `N` is `N..N`, `N<sep>M` is
    `N..M`; any other text names none. -/
def portRange (sep : Char) (s : Str) : Option (Nat × Nat) :=
  match Str.split s sep with
  | [n] => if Str.isdigit n then some (decimal n, decimal n) else none
  | [n, m] => if Str.isdigit n && Str.isdigit m then some (decimal n, decimal m) else none
  | _ => none

/-- Whether a port lies in a range; a packet without a port lies in none. -/
def inRange : Option (Nat × Nat) → Option Nat → Bool
  | some (lo, hi), some p => lo ≤ p && p ≤ hi
  | _, _ => false

/-- A text that names ports is one decimal number, or two around the separator. -/
theorem portRange_isSome {sep : Char} {s : Str} (h : (portRange sep s).isSome) :
    (∃ x, Str.split s sep = [x] ∧ Str.isdigit x) ∨
      ∃ x y, Str.split s sep = [x, y] ∧ Str.isdigit x ∧ Str.isdigit y := by
  unfold portRange at h
  split at h
  · next x hx =>
    split at h
    · next hd => exact .inl ⟨x, hx, hd⟩
    · cases h
  · next x y hxy =>
    split at h
    · next hd => exact .inr ⟨x, y, hxy, Bool.and_eq_true _ _ ▸ hd⟩
    · cases h
  · cases h

/-- Ports as the writers of rules give them: `N` or `N-M`, each number in decimal without a
    leading zero, which the tools may read in another base. -/
def PortsText (d : Str) : Prop :=
  (portRange '-' d).isSome ∧ ∀ x ∈ Str.split d '-', x.head? = some '0' → x = key "0"

instance : DecidablePred PortsText := fun _ => inferInstanceAs (Decidable (_ ∧ _))

/-- Written ports hold digits and dashes alone. -/
theorem PortsText.not_mem {d : Str} (h : PortsText d) {c : Char} (hc : c ≠ '-')
    (hd : c.isDigit = false) : c ∉ d := by
  intro hm
  obtain ⟨x, hx, hcx⟩ := Str.exists_mem_split hc hm
  have hdig : Str.isdigit x = true := by
    rcases portRange_isSome h.1 with ⟨y, hy, hdy⟩ | ⟨y, z, hyz, hdy, hdz⟩
    · rw [hy, List.mem_singleton] at hx
      exact hx ▸ hdy
    · rw [hyz, List.mem_pair] at hx
      rcases hx with rfl | rfl
      exacts [hdy, hdz]
  simp only [Str.isdigit, Bool.and_eq_true, List.all_eq_true] at hdig
  exact absurd (hdig.2 c hcx) (by rw [hd]; decide)

theorem inRange_isSome {r : Option (Nat × Nat)} {port : Option Nat} (h : inRange r port) :
    port.isSome := by
  cases r <;> cases port <;> first | rfl | cases h

theorem portRange_replace {s : Str} {a b : Char} (h : b ∉ s) :
    portRange b (Str.replace s a b) = portRange a s := by
  rw [portRange, portRange, Str.split_replace h]

/-- A range of one port holds that port only. -/
theorem inRange_single (n : Nat) (port : Option Nat) :
    inRange (some (n, n)) port = decide (port = some n) := by
  cases port with
  | none => rfl
  | some p =>
    rw [inRange, Bool.eq_iff_iff]
    simp only [Option.some.injEq, Bool.and_eq_true, decide_eq_true_eq]
    omega

theorem portRange_fifty_three :
    portRange '-' (key "53") = some (53, 53) ∧ portRange '-' (key "53-53") = some (53, 53) ∧
      portRange ':' (key "53:53") = some (53, 53) := by
  decide

/-! ## Section 3: Rules -/

/-- The protocol a `proto` option names in a family: `icmp` is `icmpv6` for IPv6. -/
def protoName (family : Family) (p : Str) : Str :=
  if p = key "icmp" ∧ family = .six then key "icmpv6" else p

/-- The protocols a rule names by the names the tools read as those protocols alone: the
    tools also take numbers (`6`) and `all`, which a comparison of names does not read. -/
def ruleProtos : List Str := [key "tcp", key "udp", key "icmp"]

/-- Whether the resolver gives an address for a host name in a family. -/
def resolvesTo (env : Env) (family : Family) (host addr : Str) : Bool :=
  match env.getaddrinfo host family with
  | .ok addrs => addr ∈ addrs
  | .error _ => false

section Rules

variable (inPrefix : Str → Str → Bool) (env : Env) {family : Family} (dns : List Str)
  (rule : Dict) (pkt : Packet family)

/-- The `proto` option holds of the packet. -/
def protoHolds : Bool := (rule.get (key "proto")).all fun p => pkt.proto = protoName family p

/-- The destination options hold of the packet. -/
def destHolds : Bool :=
  (rule.get (key "dst4")).all (inPrefix · pkt.dst) &&
    (rule.get (key "dst6")).all (inPrefix · pkt.dst) &&
    (rule.get (key "dsthost")).all (resolvesTo env family · pkt.dst)

/-- The `dstports` option holds of the packet. -/
def portsHolds : Bool :=
  (rule.get (key "dstports")).all fun d => inRange (portRange '-' d) pkt.port

/-- The `icmptype` option holds of the packet. -/
def icmpHolds : Bool := (rule.get (key "icmptype")).all fun t => pkt.icmpType = some t

/-- `specialtarget=dns` holds of the packet: `tcp` or `udp` to port 53 of a nameserver. -/
def dnsHolds : Bool :=
  !isDnsRule rule ||
    ((pkt.proto = key "tcp" || pkt.proto = key "udp") && pkt.port = some 53 && pkt.dst ∈ dns)

/-- A rule matches a packet when every option it carries holds of it. -/
def ruleMatches : Bool :=
  protoHolds rule pkt && destHolds inPrefix env rule pkt && portsHolds rule pkt &&
    icmpHolds rule pkt && dnsHolds dns rule pkt

end Rules

/-- The action a rule names. -/
def actionOf (rule : Dict) : Str := (rule.get (key "action")).getD []

/-- The first rule of a list that matches a packet, with `dns` the family's nameservers. -/
def firstMatch (inPrefix : Str → Str → Bool) (env : Env) {family : Family} (dns : List Str)
    (rules : List Dict) (pkt : Packet family) : Option Dict :=
  rules.find? (ruleMatches inPrefix env dns · pkt)

/-- A prefix with the full-host mask of the family holds its own address and no other. -/
def FullHostPrefixes (inPrefix : Str → Str → Bool) (family : Family) : Prop :=
  ∀ a x, inPrefix (a ++ fullmask family) x = true ↔ x = a

/-- The prefixes of full-host masks alone: `a/32` (`a/128` for IPv6) holds `a`, and a
    prefix of any other form holds nothing. -/
def hostPrefix (family : Family) (p x : Str) : Bool := p = x ++ fullmask family

theorem fullHostPrefixes_hostPrefix (family : Family) :
    FullHostPrefixes (hostPrefix family) family := fun a x => by
  simp only [hostPrefix, decide_eq_true_eq]
  exact ⟨fun h => (List.append_cancel_right h).symm, fun h => h ▸ rfl⟩

/-- Full-host prefixes of some addresses hold exactly those addresses. -/
theorem any_fullmask {inPrefix : Str → Str → Bool} {family : Family}
    (hfull : FullHostPrefixes inPrefix family) (addrs : List Str) (x : Str) :
    (addrs.map (· ++ fullmask family)).any (inPrefix · x) = decide (x ∈ addrs) := by
  rw [Bool.eq_iff_iff, List.any_eq_true, decide_eq_true_iff]
  simp only [List.mem_map, exists_exists_and_eq_and]
  constructor
  · rintro ⟨a, ha, hin⟩
    exact (hfull a x).1 hin ▸ ha
  · exact fun hx => ⟨x, hx, (hfull x x).2 rfl⟩

theorem any_dedup {α : Type} [DecidableEq α] (l : List α) (p : α → Bool) :
    l.dedup.any p = l.any p := by
  rw [Bool.eq_iff_iff, List.any_eq_true, List.any_eq_true]
  simp only [List.mem_dedup]

/-- A rule carries at most one of `dst4`, `dst6` and `dsthost`. -/
def OneDestination (rule : Dict) : Prop :=
  ∀ k ∈ [key "dst4", key "dst6", key "dsthost"], ∀ k' ∈ [key "dst4", key "dst6", key "dsthost"],
    rule.contains k → rule.contains k' → k = k'

instance : DecidablePred OneDestination := fun _ => List.decidableBAll _ _

/-- A rule with one destination option has none of the others. -/
theorem OneDestination.get_eq_none {rule : Dict} (h : OneDestination rule) {k k' v : Str}
    (hk : k ∈ [key "dst4", key "dst6", key "dsthost"])
    (hk' : k' ∈ [key "dst4", key "dst6", key "dsthost"]) (hne : k ≠ k')
    (hv : rule.get k = some v) : rule.get k' = none := by
  cases h' : rule.get k' with
  | none => rfl
  | some v' =>
    exact absurd (h k hk k' hk' (by rw [Dict.contains_eq_isSome, hv]; rfl)
      (by rw [Dict.contains_eq_isSome, h']; rfl)) hne

/-! ## Section 4: Source addresses

    Both tools match the source of a jump by the address its text names, not by the text:
    `fd00::1` and `fd00:0::1` name one address.  `hostOf` reads an address literal as
    `inet_pton` does: an IPv4 literal is four decimal octets, here without a leading zero
    (`iptables` reads `010` in octal); an IPv6 literal is hexadecimal groups of one to four
    digits, with at most one `::` standing for the zero groups that make eight, and possibly
    an IPv4 literal for the last two.
-/

/-- The value of an octet of an IPv4 literal: one to three decimal digits, no leading zero,
    at most 255. -/
def octetValue (s : Str) : Option Nat :=
  if Str.isdigit s ∧ s.length ≤ 3 ∧ (s.head? = some '0' → s = key "0") ∧ decimal s ≤ 255 then
    some (decimal s)
  else none

/-- The four octets of an IPv4 literal. -/
def ipv4Octets (s : Str) : Option (List Nat) :=
  ((Str.split s '.').mapM octetValue).filter (·.length = 4)

/-- The value of a hexadecimal digit. -/
def hexValue (c : Char) : Option Nat :=
  if c.isDigit then some (c.toNat - 48)
  else if 'a' ≤ c ∧ c ≤ 'f' then some (c.toNat - 87)
  else if 'A' ≤ c ∧ c ≤ 'F' then some (c.toNat - 55)
  else none

/-- The value of a group of an IPv6 literal: one to four hexadecimal digits. -/
def groupValue (g : Str) : Option Nat :=
  if g = [] ∨ 4 < g.length then none
  else g.foldlM (fun n c => (hexValue c).map (16 * n + ·)) 0

/-- The two groups an embedded IPv4 literal stands for. -/
def quadGroups : List Nat → List Nat
  | [a, b, c, d] => [256 * a + b, 256 * c + d]
  | _ => []

/-- The groups of the pieces of an IPv6 literal between colons, the last of which may be an
    IPv4 literal. -/
def groupsOf : List Str → Option (List Nat)
  | [] => some []
  | [p] => if '.' ∈ p then (ipv4Octets p).map quadGroups else (groupValue p).map ([·])
  | p :: ps => do
    let g ← groupValue p
    let gs ← groupsOf ps
    pure (g :: gs)

/-- The text before the first `::` of a text, and the text after it. -/
def splitDouble : Str → Option (Str × Str)
  | ':' :: ':' :: rest => some ([], rest)
  | c :: rest => (splitDouble rest).map fun lr => (c :: lr.1, lr.2)
  | [] => none

/-- The eight groups of an IPv6 literal: written out, or with `::` for the missing ones. -/
def ipv6Groups (s : Str) : Option (List Nat) :=
  match splitDouble s with
  | none => (groupsOf (Str.split s ':')).filter (·.length = 8)
  | some (l, r) => do
    let front ← if l = [] then some [] else (Str.split l ':').mapM groupValue
    let back ← if r = [] then some [] else groupsOf (Str.split r ':')
    if front.length + back.length ≤ 7 then
      some (front ++ List.replicate (8 - front.length - back.length) 0 ++ back)
    else none

/-- The characters of an address literal: hexadecimal digits, dots and colons. -/
def addrChars : Str := "0123456789abcdefABCDEF.:".toList

/-- The address a literal names: its family and its octets or groups; `none` for a text
    that is no address literal. -/
def hostOf (s : Str) : Option (Family × List Nat) :=
  if Str.Only (· ∈ addrChars) s then
    if ':' ∈ s then (ipv6Groups s).map (.six, ·) else (ipv4Octets s).map (.four, ·)
  else none

/-- An address literal is made of the characters of literals. -/
theorem only_addrChars_of_hostOf {s : Str} (h : (hostOf s).isSome) : Str.Only (· ∈ addrChars) s := by
  unfold hostOf at h
  split_ifs at h with hs
  all_goals first | exact hs | cases h

/-- Whether two texts are literals of one address. -/
def sameHost (x y : Str) : Bool := (hostOf x).isSome && decide (hostOf x = hostOf y)

theorem sameHost_self {x : Str} (h : (hostOf x).isSome) : sameHost x x = true := by
  simp [sameHost, h]

theorem hostOf_eq_of_sameHost {x y : Str} (h : sameHost x y = true) : hostOf x = hostOf y := by
  simp only [sameHost, Bool.and_eq_true, decide_eq_true_eq] at h
  exact h.2

theorem isSome_of_sameHost {x y : Str} (h : sameHost x y = true) : (hostOf x).isSome := by
  simp only [sameHost, Bool.and_eq_true] at h
  exact h.1

/-- The family of an address is that of its text: IPv6 exactly when it holds a colon. -/
theorem hostOf_family {x : Str} {f : Family} {v : List Nat} (h : hostOf x = some (f, v)) :
    f = if ':' ∈ x then .six else .four := by
  unfold hostOf at h
  split_ifs at h ⊢
  all_goals first
    | cases h
    | (obtain ⟨w, -, hw⟩ := Option.map_eq_some'.1 h; exact (Prod.mk.inj hw).1.symm)

example : hostOf (key "fd00::1") = hostOf (key "fd00:0::1") ∧
    hostOf (key "::ffff:1.2.3.4") ≠ hostOf (key "::ffff:1:2:3:4") ∧ hostOf (key "010.0.0.1") = none := by
  decide

/-! ## Section 5: A DNS query -/

/-- A resolver configuration with one IPv4 nameserver, and a resolver that knows no host. -/
def oneNameserver : Env := ⟨"nameserver 10.139.1.1\n".toList, fun _ _ => .ok []⟩

theorem oneNameserver_resolvesOnly (good : Char → Prop) (family : Family) :
    oneNameserver.ResolvesOnly good family :=
  fun _ _ h => by cases h; exact fun _ h => absurd h (List.not_mem_nil _)

/-- A DNS query over UDP to that nameserver. -/
def dnsQuery : Packet .four := ⟨key "udp", key "10.139.1.1", some 53, none, by decide, by decide⟩

/-- `action=accept specialtarget=dns`, with the given ports. -/
def acceptDns (ports : Option Str) : Dict :=
  Dict.ofList ([(key "action", key "accept"), (key "specialtarget", key "dns")] ++
    ports.toList.map fun p => (key "dstports", p))

/-- The rule `action=drop`, the policy at the end of every rule list. -/
def dropAll : Dict := Dict.single (key "action") (key "drop")

end QubesFirewall
