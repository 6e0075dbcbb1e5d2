import QubesFirewall.Iptables
import QubesFirewall.Packet

/-! # The legacy backend keeps the first-match meaning

    `iptables-restore` reads a line `-A <chain> <options> -j <target>` of a program as: a
    packet for which every option holds goes to the target, `-d` a destination prefix,
    `-p` a protocol, `--dport` a port or a range `lo:hi`, `--icmp-type` an ICMP type.  The
    target of a packet is that of the first line that holds of it.  The reading here splits
    a line at spaces and compares protocols by name, as the tool does for the lines the law
    is about: tokens without a blank, a quote or a backslash (which the tool's tokenizer
    reads), protocols named `tcp`, `udp` or `icmp` (the tool also reads numbers and `all`),
    and ports written in decimal.

    The law proved here: for a rule list the translation accepts, the first line holding
    of a packet has the action (in capitals) of the first rule matching it, and no line
    holds when no rule matches.  Besides that shape it needs at most one destination option
    and two conditions on `specialtarget=dns` rules.  The code compares the ports of a DNS
    rule with `53:53` as text, so ports `53` drop the rule; and it intersects the
    nameservers with a `dst4`/`dst6` value as text, so a prefix holding a nameserver keeps
    it only when it is that nameserver's full-host prefix.
-/

namespace QubesFirewall.Iptables

/-! ## Section 1: What `iptables` reads from a program -/

section Reading

variable (inPrefix : Str → Str → Bool) {family : Family} (pkt : Packet family)

/-- Whether one match option of a line, a flag and its value, holds of the packet. -/
def optionHolds (flag v : Str) : Bool :=
  if flag = key "-d" then inPrefix v pkt.dst
  else if flag = key "-p" then pkt.proto = v
  else if flag = key "--dport" then inRange (portRange ':' v) pkt.port
  else if flag = key "--icmp-type" then pkt.icmpType = some v
  else false

/-- The target of the options of a line, `-j <target>` last, when every option before it
    holds of the packet. -/
def optionsTarget : List Str → Option Str
  | flag :: v :: rest =>
    if flag = key "-j" ∧ rest = [] then some v
    else if optionHolds inPrefix pkt flag v then optionsTarget rest else none
  | _ => none

/-- The target of a line `-A <chain> <options>` whose options all hold of the packet. -/
def lineTarget (line : Str) : Option Str :=
  match Str.split line ' ' with
  | a :: _ :: options => if a = key "-A" then optionsTarget inPrefix pkt options else none
  | _ => none

/-- The target of the first `-A` line of a program whose options all hold of the packet. -/
def programTarget (program : Str) : Option Str :=
  (Str.split program '\n').findSome? (lineTarget inPrefix pkt)

/-- Whether a line with the given options holds of the packet. -/
def lineHolds (dsthost proto dstports icmptype : Option Str) : Bool :=
  dsthost.all (inPrefix · pkt.dst) && proto.all (pkt.proto = ·) &&
    dstports.all (fun d => inRange (portRange ':' d) pkt.port) &&
    icmptype.all (pkt.icmpType = some ·)

/-- Whether some value of a selector holds; an absent selector always holds. -/
def selAny (o : Option (List Str)) (p : Str → Bool) : Bool :=
  match o with
  | none => true
  | some xs => xs.any p

/-- Whether the selectors of a rule hold of the packet: some destination, some protocol,
    and the ports. -/
def selHolds (sel : Selectors) : Bool :=
  selAny sel.dsthosts (inPrefix · pkt.dst) && selAny sel.protos (pkt.proto = ·) &&
    sel.dstports.all fun d => inRange (portRange ':' d) pkt.port

end Reading

/-! ## Section 2: The lines of one rule -/

section Lines

variable {inPrefix : Str → Str → Bool} {family : Family} {pkt : Packet family}

theorem optionsTarget_optTokens {flag : String} (hflag : flag.toList ≠ key "-j")
    (o : Option Str) (rest : List Str) :
    optionsTarget inPrefix pkt (optTokens flag o ++ rest) =
      if o.all (optionHolds inPrefix pkt flag.toList) then optionsTarget inPrefix pkt rest
      else none := by
  cases o with
  | none => rfl
  | some v =>
    simp only [optTokens, List.cons_append, List.nil_append, optionsTarget, hflag, false_and,
      if_false, Option.all]
    rfl

/-- A line of the translation, read back from its text. -/
theorem lineTarget_join {chain : Str} {dsthost proto dstports icmptype : Option Str}
    {action : Str} (h : ∀ t ∈ lineTokens chain dsthost proto dstports icmptype action, ' ' ∉ t) :
    lineTarget inPrefix pkt (Str.join [' '] (lineTokens chain dsthost proto dstports icmptype action)) =
      if lineHolds inPrefix pkt dsthost proto dstports icmptype then some (Str.upper action)
      else none := by
  rw [lineTarget, Str.split_join h (List.cons_ne_nil _ _), lineTokens]
  simp only [if_pos, List.append_assoc]
  rw [optionsTarget_optTokens (by decide), optionsTarget_optTokens (by decide),
    optionsTarget_optTokens (by decide), optionsTarget_optTokens (by decide)]
  simp only [lineHolds, Bool.and_eq_true, ite_and]
  rfl

/-- The first of some texts whose reading is one target under a condition. -/
theorem findSome?_eq_ite {α β : Type} {f : α → Option β} {c : α → Bool} {b : β} :
    ∀ {l : List α}, (∀ x ∈ l, f x = if c x then some b else none) →
      l.findSome? f = if l.any c then some b else none
  | [], _ => rfl
  | x :: l, h => by
    rw [List.findSome?_cons, h x (List.mem_cons_self x l), List.any_cons,
      findSome?_eq_ite fun y hy => h y (List.mem_cons_of_mem x hy)]
    cases c x <;> rfl

theorem any_sortedOrNone (o : Option (List Str)) (p : Str → Bool) :
    (sortedOrNone o).any (fun x => x.all p) = selAny o p := by
  cases o with
  | none => rfl
  | some xs =>
    rw [sortedOrNone, selAny, Bool.eq_iff_iff]
    simp only [List.any_eq_true, List.mem_map, Str.mem_sorted]
    constructor
    · rintro ⟨_, ⟨x, hx, rfl⟩, h⟩
      exact ⟨x, hx, h⟩
    · rintro ⟨x, hx, h⟩
      exact ⟨some x, ⟨x, hx, rfl⟩, h⟩

/-- Some pair of a protocol and a destination holds exactly when some protocol and some
    destination hold. -/
theorem any_loopPairs (sel : Selectors) (q r : Str → Bool) :
    (loopPairs sel).any (fun pd => pd.2.all q && pd.1.all r) =
      (selAny sel.dsthosts q && selAny sel.protos r) := by
  rw [← any_sortedOrNone, ← any_sortedOrNone, loopPairs, List.any_flatMap, Bool.eq_iff_iff]
  simp only [List.any_map, Function.comp_def, List.any_eq_true, Bool.and_eq_true, List.mem_map,
    exists_exists_and_eq_and]
  constructor
  · rintro ⟨p, hp, d, hd, hq, hr⟩
    exact ⟨⟨d, hd, hq⟩, p, hp, hr⟩
  · rintro ⟨⟨d, hd, hq⟩, p, hp, hr⟩
    exact ⟨p, hp, d, hd, hq, hr⟩

theorem any_and_const {α : Type} (l : List α) (f : α → Bool) (b : Bool) :
    l.any (fun x => f x && b) = (l.any f && b) := by
  cases b <;> simp

/-- The lines of a rule's selectors, read back: the rule's target exactly when its
    selectors and its ICMP type hold. -/
theorem findSome?_lines {chain : Str} {sel : Selectors} {icmptype : Option Str} {a : Str}
    (h : ∀ pd ∈ loopPairs sel, ∀ t ∈ lineTokens chain pd.2 pd.1 sel.dstports icmptype a, ' ' ∉ t) :
    ((loopPairs sel).map fun pd =>
        Str.join [' '] (lineTokens chain pd.2 pd.1 sel.dstports icmptype a)).findSome?
        (lineTarget inPrefix pkt) =
      if selHolds inPrefix pkt sel && icmptype.all (pkt.icmpType = some ·) then
        some (Str.upper a)
      else none := by
  rw [List.findSome?_map, Function.comp_def,
    findSome?_eq_ite fun pd hpd => lineTarget_join (h pd hpd)]
  have hl : ∀ pd : Option Str × Option Str,
      lineHolds inPrefix pkt pd.2 pd.1 sel.dstports icmptype =
        (pd.2.all (inPrefix · pkt.dst) && pd.1.all (pkt.proto = ·) &&
          (sel.dstports.all (fun d => inRange (portRange ':' d) pkt.port) &&
            icmptype.all (pkt.icmpType = some ·))) :=
    fun _ => by simp only [lineHolds, Bool.and_assoc]
  simp only [hl]
  rw [any_and_const, any_loopPairs, selHolds]
  simp only [Bool.and_assoc]

end Lines

/-! ## Section 3: The selectors of a rule against its meaning -/

/-- A character `iptables-restore` keeps inside one token: its tokenizer splits a line at
    spaces, tabs and line breaks, and reads quotes and backslashes. -/
def TokenChar (c : Char) : Prop :=
  c ≠ ' ' ∧ c ≠ '\t' ∧ c ≠ '\n' ∧ c ≠ '"' ∧ c ≠ '\x27' ∧ c ≠ '\\'

instance : DecidablePred TokenChar := fun _ => inferInstanceAs (Decidable (_ ∧ _))

theorem TokenChar.blank {c : Char} (h : TokenChar c) : c ≠ ' ' ∧ c ≠ '\n' := ⟨h.1, h.2.2.1⟩

theorem TokenChar.toUpper {c : Char} (h : TokenChar c) : TokenChar c.toUpper :=
  ⟨Str.toUpper_ne h.1 (by decide), Str.toUpper_ne h.2.1 (by decide),
    Str.toUpper_ne h.2.2.1 (by decide), Str.toUpper_ne h.2.2.2.1 (by decide),
    Str.toUpper_ne h.2.2.2.2.1 (by decide), Str.toUpper_ne h.2.2.2.2.2 (by decide)⟩

/-- A text that is one token of one line. -/
def OneToken (s : Str) : Prop := Str.Only TokenChar s

instance : DecidablePred OneToken := fun s => inferInstanceAs (Decidable (Str.Only _ s))

/-- What the first-match law asks of a rule in the legacy backend: values that are one
    token, protocols among `ruleProtos`, at most one destination option, ports written `N`
    or `N-M`, and for a `specialtarget=dns` rule, ports `53-53` or ports without 53, and a
    `dst4`/`dst6` prefix that holds a nameserver of `N` only when it is that nameserver's
    full-host prefix. -/
structure LawfulRule (inPrefix : Str → Str → Bool) (family : Family) (N : List Str)
    (rule : Dict) : Prop where
  oneToken : rule.ValuesOnly TokenChar
  protos : (rule.get (key "proto")).all (· ∈ ruleProtos)
  oneDestination : OneDestination rule
  portsText : (rule.get (key "dstports")).all (PortsText ·)
  dnsPorts : isDnsRule rule →
    (rule.get (key "dstports")).all fun d => d = key "53-53" || !inRange (portRange '-' d) (some 53)
  dnsPrefix : isDnsRule rule → ∀ k ∈ [key "dst4", key "dst6"],
    (rule.get k).all fun d => N.all fun ns => !inPrefix d ns || d = ns ++ fullmask family

instance {inPrefix : Str → Str → Bool} {family : Family} {N : List Str} {rule : Dict} :
    Decidable (LawfulRule inPrefix family N rule) :=
  decidable_of_iff (_ ∧ _ ∧ _ ∧ _ ∧ _ ∧ _)
    ⟨fun ⟨a, b, c, d, e, f⟩ => ⟨a, b, c, d, e, f⟩, fun ⟨a, b, c, d, e, f⟩ => ⟨a, b, c, d, e, f⟩⟩

/-- Written ports hold no colon, the separator of the ranges the translation writes. -/
theorem LawfulRule.noColon {inPrefix : Str → Str → Bool} {family : Family} {N : List Str}
    {rule : Dict} (h : LawfulRule inPrefix family N rule) :
    (rule.get (key "dstports")).all (':' ∉ ·) := by
  have hp := h.portsText
  revert hp
  cases rule.get (key "dstports") with
  | none => exact fun _ => rfl
  | some d =>
    rw [Option.all_some, Option.all_some]
    exact fun hp => decide_eq_true ((of_decide_eq_true hp).not_mem (by decide) rfl)

section Selectors

variable {inPrefix : Str → Str → Bool} {env : Env} {family : Family} {pkt : Packet family}
  {rule : Dict}

theorem selAny_protosOf : selAny (protosOf rule family) (pkt.proto = ·) = protoHolds rule pkt := by
  unfold protosOf protoHolds protoName
  cases rule.get (key "proto") with
  | none => rfl
  | some p =>
    simp only [Option.map_some', Option.all_some]
    split_ifs <;> simp [selAny]

/-- The destinations of a rule with at most one destination option hold exactly when its
    destination option does. -/
theorem selAny_dsthostsOf (hfull : FullHostPrefixes inPrefix family) (hone : OneDestination rule)
    {ds : Option (List Str)} (h : dsthostsOf env rule family = .ok ds) :
    selAny ds (inPrefix · pkt.dst) = destHolds inPrefix env rule pkt := by
  unfold dsthostsOf at h
  unfold destHolds
  split at h
  · next d hd =>
    cases h
    rw [hd, hone.get_eq_none (by decide) (by decide) (by decide) hd,
      hone.get_eq_none (by decide) (by decide) (by decide) hd]
    simp [selAny]
  · next d h4 hd =>
    cases h
    rw [h4, hd, hone.get_eq_none (by decide) (by decide) (by decide) hd]
    simp [selAny]
  · next host h4 h6 hh =>
    obtain ⟨addrs, hr, rfl⟩ := map_eq_ok.1 h
    rw [h4, h6, hh]
    simp only [selAny, Option.all, resolvesTo]
    rw [getaddrinfo_of_resolveHost hr]
    dsimp only
    rw [Bool.true_and, Bool.true_and, Bool.eq_iff_iff, List.any_eq_true, decide_eq_true_iff]
    simp only [List.mem_dedup, List.mem_map, exists_exists_and_eq_and]
    constructor
    · rintro ⟨a, ha, hin⟩
      exact (hfull a pkt.dst).1 hin ▸ ha
    · intro hin
      exact ⟨pkt.dst, hin, (hfull _ _).2 rfl⟩
  · next h4 h6 hh =>
    cases h
    rw [h4, h6, hh]
    rfl

theorem all_dstportsOf (hcolon : (rule.get (key "dstports")).all (':' ∉ ·)) :
    (dstportsOf rule).all (fun d => inRange (portRange ':' d) pkt.port) = portsHolds rule pkt := by
  unfold dstportsOf portsHolds
  cases hd : rule.get (key "dstports") with
  | none => rfl
  | some d =>
    rw [hd] at hcolon
    simp only [Option.map_some', Option.all_some]
    rw [portRange_replace (by simpa using hcolon)]

theorem selAny_dnsProtos (o : Option (List Str)) :
    selAny (some (dnsProtos o)) (pkt.proto = ·) =
      ((pkt.proto = key "tcp" || pkt.proto = key "udp") && selAny o (pkt.proto = ·)) := by
  rw [Bool.eq_iff_iff]
  cases o with
  | none => simp [selAny, dnsProtos]
  | some ps =>
    simp only [selAny, dnsProtos, List.any_eq_true, List.mem_filter, Bool.and_eq_true,
      Bool.or_eq_true, decide_eq_true_eq, List.mem_cons, List.mem_singleton, List.not_mem_nil,
      or_false]
    constructor
    · rintro ⟨_, ⟨hx, hxp⟩, rfl⟩
      exact ⟨hx, _, hxp, rfl⟩
    · rintro ⟨hx, x, hxp, rfl⟩
      exact ⟨_, ⟨hx, hxp⟩, rfl⟩

/-- The nameservers the DNS step keeps hold of a destination exactly when it is a
    nameserver and the rule's destinations hold of it, when those hold of a nameserver only
    as its full-host prefix. -/
theorem selAny_dnsHosts (hfull : FullHostPrefixes inPrefix family) {N : List Str}
    {o : Option (List Str)}
    (hexact : ∀ ds, o = some ds → ∀ y ∈ ds, ∀ ns ∈ N, inPrefix y ns → y = ns ++ fullmask family) :
    selAny (some (dnsHosts (N.map (· ++ fullmask family)) o)) (inPrefix · pkt.dst) =
      (decide (pkt.dst ∈ N) && selAny o (inPrefix · pkt.dst)) := by
  rw [Bool.eq_iff_iff]
  cases o with
  | none =>
    simp only [selAny, dnsHosts, List.any_eq_true, List.mem_map, exists_exists_and_eq_and,
      Bool.and_true, decide_eq_true_eq]
    constructor
    · rintro ⟨ns, hns, hin⟩
      exact (hfull ns pkt.dst).1 hin ▸ hns
    · exact fun hin => ⟨pkt.dst, hin, (hfull _ _).2 rfl⟩
  | some ds =>
    simp only [selAny, dnsHosts, List.any_eq_true, List.mem_filter, List.mem_dedup, List.mem_map,
      Bool.and_eq_true, decide_eq_true_eq]
    constructor
    · rintro ⟨_, ⟨⟨ns, hns, rfl⟩, hds⟩, hin⟩
      exact ⟨(hfull ns pkt.dst).1 hin ▸ hns, _, hds, hin⟩
    · rintro ⟨hin, y, hy, hiny⟩
      have hy' := hexact ds rfl y hy pkt.dst hin hiny
      exact ⟨y, ⟨⟨pkt.dst, hin, hy'.symm⟩, hy⟩, hiny⟩

/-- The ports the DNS step keeps, `53:53`, hold of port 53 alone, and so do the rule's own
    ports together with port 53. -/
theorem portsHolds_kept (hcolon : (rule.get (key "dstports")).all (':' ∉ ·))
    (hp : dstportsOf rule ∈ [some (key "53:53"), none]) :
    (portsHolds rule pkt && decide (pkt.port = some 53)) = decide (pkt.port = some 53) := by
  rw [← all_dstportsOf hcolon]
  rcases List.mem_pair.1 hp with h | h <;> rw [h]
  · rw [Option.all_some, portRange_fifty_three.2.2, inRange_single, Bool.and_self]
  · rfl

/-- The ports of a DNS rule that the DNS step drops hold of no packet to port 53. -/
theorem portsHolds_dropped {N : List Str} (hrule : LawfulRule inPrefix family N rule)
    (hdns : isDnsRule rule) (hp : dstportsOf rule ∉ [some (key "53:53"), none]) :
    (portsHolds rule pkt && decide (pkt.port = some 53)) = false := by
  have hports := hrule.dnsPorts hdns
  unfold dstportsOf at hp
  unfold portsHolds
  cases hd : rule.get (key "dstports") with
  | none => rw [hd] at hp; exact absurd (List.mem_cons_of_mem _ (List.mem_singleton_self _)) hp
  | some d =>
    rw [hd] at hp hports
    simp only [Option.all_some, Bool.or_eq_true, decide_eq_true_eq, Bool.not_eq_true'] at hports
    rcases hports with rfl | hout
    · exact absurd (List.mem_cons_self _ _) hp
    · rw [Option.all_some, Bool.eq_false_iff]
      intro h
      simp only [Bool.and_eq_true, decide_eq_true_eq] at h
      rw [h.2, hout] at h
      exact Bool.false_ne_true h.1

/-- The prefixes a rule's destinations give hold of a nameserver only as its full-host
    prefix. -/
theorem dsthostsOf_exact (hfull : FullHostPrefixes inPrefix family) {N : List Str}
    (hrule : LawfulRule inPrefix family N rule) (hdns : isDnsRule rule)
    {ds : Option (List Str)} (hds : dsthostsOf env rule family = .ok ds) :
    ∀ D, ds = some D → ∀ y ∈ D, ∀ ns ∈ N, inPrefix y ns → y = ns ++ fullmask family := by
  have hprefix : ∀ k ∈ [key "dst4", key "dst6"], ∀ d, rule.get k = some d →
      ∀ ns ∈ N, inPrefix d ns → d = ns ++ fullmask family := by
    intro k hk d hd ns hns hin
    have h := hrule.dnsPrefix hdns k hk
    rw [hd, Option.all_some, List.all_eq_true] at h
    simpa [hin] using h ns hns
  intro D hD y hy ns hns hin
  subst hD
  unfold dsthostsOf at hds
  split at hds
  · next d hd =>
    cases hds
    exact hprefix _ (by decide) y (List.mem_singleton.1 hy ▸ hd) ns hns hin
  · next d _ hd =>
    cases hds
    exact hprefix _ (by decide) y (List.mem_singleton.1 hy ▸ hd) ns hns hin
  · obtain ⟨addrs, -, he⟩ := map_eq_ok.1 hds
    cases he
    obtain ⟨a, -, rfl⟩ := List.mem_map.1 (List.mem_dedup.1 hy)
    rw [(hfull a ns).1 hin]
  · cases hds

/-- The selectors a rule is emitted with hold of a packet exactly when the rule's
    protocol, destination, ports and DNS conditions do. -/
theorem effectiveSelectors_holds (hfull : FullHostPrefixes inPrefix family) {N : List Str}
    (hrule : LawfulRule inPrefix family N rule) {ds : Option (List Str)}
    (hds : dsthostsOf env rule family = .ok ds) :
    (effectiveSelectors (N.map (· ++ fullmask family)) family rule ds).any
        (selHolds inPrefix pkt) =
      (protoHolds rule pkt && destHolds inPrefix env rule pkt && portsHolds rule pkt &&
        dnsHolds N rule pkt) := by
  have hD : selAny ds (inPrefix · pkt.dst) = destHolds inPrefix env rule pkt :=
    selAny_dsthostsOf hfull hrule.oneDestination hds
  unfold effectiveSelectors dnsHolds
  by_cases hdns : isDnsRule rule
  · rw [if_pos hdns, hdns]
    unfold dnsStep
    dsimp only
    by_cases hp : dstportsOf rule ∈ [some (key "53:53"), none]
    · rw [if_neg (not_not.2 hp)]
      by_cases hn : N = []
      · subst hn
        simp
      · rw [if_neg (by simpa using hn)]
        have hk : (portsHolds rule pkt && decide (pkt.port = some 53)) = decide (pkt.port = some 53) :=
          portsHolds_kept hrule.noColon hp
        simp only [Option.any_some, selHolds]
        rw [selAny_dnsHosts hfull (dsthostsOf_exact hfull hrule hdns hds), selAny_dnsProtos, hD,
          selAny_protosOf, Option.all_some, portRange_fifty_three.2.2, inRange_single]
        rw [Bool.eq_iff_iff] at hk ⊢
        simp only [Bool.and_eq_true, Bool.or_eq_true, Bool.not_true, Bool.false_eq_true,
          false_or, decide_eq_true_eq] at hk ⊢
        constructor
        · rintro ⟨⟨⟨hN, hD'⟩, hT, hP⟩, h53⟩
          exact ⟨⟨⟨hP, hD'⟩, (hk.2 h53).1⟩, ⟨hT, h53⟩, hN⟩
        · rintro ⟨⟨⟨hP, hD'⟩, -⟩, ⟨hT, h53⟩, hN⟩
          exact ⟨⟨⟨hN, hD'⟩, hT, hP⟩, h53⟩
    · rw [if_pos hp]
      have h0 : (portsHolds rule pkt && decide (pkt.port = some 53)) = false :=
        portsHolds_dropped hrule hdns hp
      rw [Bool.eq_iff_iff] at h0 ⊢
      simp only [Option.any, Bool.and_eq_true, Bool.or_eq_true, Bool.not_true,
        Bool.false_eq_true, false_or, decide_eq_true_eq, iff_false] at h0 ⊢
      exact ⟨False.elim, fun ⟨⟨_, hports⟩, ⟨_, h53⟩, _⟩ => h0 ⟨hports, h53⟩⟩
  · rw [if_neg hdns, Bool.eq_false_iff.2 hdns]
    simp only [Option.any_some, selHolds]
    rw [hD, selAny_protosOf, all_dstportsOf hrule.noColon]
    rw [Bool.eq_iff_iff]
    simp only [Bool.and_eq_true, Bool.not_false, Bool.true_or, and_true]
    exact and_congr_left' and_comm

end Selectors

/-! ## Section 4: The program against the first matching rule -/

section Program

variable {inPrefix : Str → Str → Bool} {env : Env} {family : Family} {pkt : Packet family}
  {N : List Str} {chain : Str}

/-- The lines of one rule, read back: the rule's action in capitals when it matches the
    packet, nothing otherwise. -/
theorem ruleLines_target (hfull : FullHostPrefixes inPrefix family) {rule : Dict}
    (hrule : LawfulRule inPrefix family N rule) (hchain : OneToken chain)
    (henv : env.ResolvesOnly TokenChar family) (hN : ∀ a ∈ N, OneToken a)
    {s : Str} (h : ruleLines env (N.map (· ++ fullmask family)) chain family rule = .ok s) :
    ∃ L : List Str, s = (L.map (· ++ ['\n'])).flatten ∧ (∀ l ∈ L, '\n' ∉ l) ∧
      L.findSome? (lineTarget inPrefix pkt) =
        if ruleMatches inPrefix env N rule pkt then some (Str.upper (actionOf rule)) else none := by
  obtain ⟨ds, -, hds, hm⟩ := ruleLines_ok h
  have hmatch : ruleMatches inPrefix env N rule pkt =
      ((effectiveSelectors (N.map (· ++ fullmask family)) family rule ds).any
        (selHolds inPrefix pkt) && icmpHolds rule pkt) := by
    rw [effectiveSelectors_holds hfull hrule hds, ruleMatches]
    cases icmpHolds rule pkt <;> simp only [Bool.and_false, Bool.and_true, Bool.false_and]
  have hdns : ∀ a ∈ N.map (· ++ fullmask family), OneToken a := by
    intro a ha
    obtain ⟨n, hn, rfl⟩ := List.mem_map.1 ha
    exact Str.only_append.2 ⟨hN n hn, by cases family <;> decide⟩
  revert hm hmatch
  cases hs : effectiveSelectors (N.map (· ++ fullmask family)) family rule ds with
  | none => exact fun hm hmatch => ⟨[], hm, by simp, by rw [hmatch]; rfl⟩
  | some sel =>
    rintro (⟨hp, rfl⟩ | ⟨a, ha, rfl⟩) hmatch
    · have hany := any_loopPairs sel (inPrefix · pkt.dst) (pkt.proto = ·)
      rw [hp, List.any_nil] at hany
      refine ⟨[], rfl, by simp, ?_⟩
      rw [hmatch, Option.any_some, selHolds, ← hany]
      rfl
    · have hsel := effectiveSelectors_only (by decide) hrule.oneToken henv hdns hds hs
      have hup : OneToken (Str.upper a) :=
        Str.only_upper (fun _ hc => hc.toUpper) (hrule.oneToken.get (Dict.get_of_getItem ha))
      have htok := fun pd (hpd : pd ∈ loopPairs sel) =>
        lineTokens_only (by decide) hchain hsel hpd
          (fun t (ht : rule.get (key "icmptype") = some t) => hrule.oneToken.get ht) hup
      refine ⟨(loopPairs sel).map fun pd => Str.join [' ']
        (lineTokens chain pd.2 pd.1 sel.dstports (rule.get (key "icmptype")) a), ?_, ?_, ?_⟩
      · simp only [linesOf, iptLine_eq_join, List.map_map, Function.comp_def]
      · intro l hl hn
        obtain ⟨pd, hpd, rfl⟩ := List.mem_map.1 hl
        exact Str.only_join (show Str.Only (· ≠ '\n') [' '] by decide)
          (fun t ht => (htok pd hpd t ht).imp fun _ hc => hc.blank.2) '\n' hn rfl
      · rw [findSome?_lines fun pd hpd t ht hsp => (htok pd hpd t ht ' ' hsp).1 rfl, hmatch,
          Option.any_some, actionOf, Dict.get_of_getItem ha]
        rfl

/-- The lines of a rule list, read back: the action in capitals of the first rule that
    matches the packet, nothing when none does. -/
theorem body_target (hfull : FullHostPrefixes inPrefix family) (hchain : OneToken chain)
    (henv : env.ResolvesOnly TokenChar family) (hN : ∀ a ∈ N, OneToken a) :
    ∀ {rules : List Dict} {body : List Str}, (∀ r ∈ rules, LawfulRule inPrefix family N r) →
      List.Forall₂ (fun r s => ruleLines env (N.map (· ++ fullmask family)) chain family r = .ok s)
        rules body →
      ∃ L : List Str, body.flatten = (L.map (· ++ ['\n'])).flatten ∧ (∀ l ∈ L, '\n' ∉ l) ∧
        L.findSome? (lineTarget inPrefix pkt) =
          (firstMatch inPrefix env N rules pkt).map (Str.upper ∘ actionOf)
  | [], [], _, .nil => ⟨[], rfl, by simp, rfl⟩
  | r :: rs, s :: ss, hrs, .cons hr hrest => by
    obtain ⟨L₁, rfl, hn₁, ht₁⟩ :=
      ruleLines_target hfull (hrs r (List.mem_cons_self r rs)) hchain henv hN hr
    obtain ⟨L₂, he₂, hn₂, ht₂⟩ :=
      body_target hfull hchain henv hN (fun r' h' => hrs r' (List.mem_cons_of_mem r h')) hrest
    refine ⟨L₁ ++ L₂, by simp [he₂], fun l hl => ?_, ?_⟩
    · rcases List.mem_append.1 hl with hl | hl
      exacts [hn₁ l hl, hn₂ l hl]
    · rw [List.findSome?_append, ht₁, ht₂, firstMatch, firstMatch, List.find?_cons]
      cases ruleMatches inPrefix env N r pkt <;> rfl

end Program

/-! ## Section 5: DNS rules -/

/-- The program of the DNS rule without ports and the policy. -/
def acceptDnsProgram : Str :=
  ("*filter\n-A qbs-10-137-0-5 -d 10.139.1.1/32 -p tcp --dport 53:53 -j ACCEPT\n" ++
    "-A qbs-10-137-0-5 -d 10.139.1.1/32 -p udp --dport 53:53 -j ACCEPT\n" ++
    "-A qbs-10-137-0-5 -j DROP\nCOMMIT\n").toList

end QubesFirewall.Iptables
