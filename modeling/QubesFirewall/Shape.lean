import QubesFirewall.Iptables
import QubesFirewall.Nftables

/-! # What the emitted programs look like to the tools

    Two syntactic properties of the programs `prepare_rules` emits.  The first is what
    `iptables`/`ip6tables` and `nft` need of the match options: a port match follows a
    `tcp` or `udp` protocol, and an ICMP type match uses the family's own keyword.  The
    legacy backend writes `--icmp-type` for IPv6, where `ip6tables` reads
    `--icmpv6-type`, and the nftables backend keeps `proto=icmp` on a
    `specialtarget=dns` rule, writing `icmp dport 53`.

    The second is the frame of a program: it only rewrites the chain it was made for.
-/

namespace QubesFirewall

/-! ## Section 1: Match options after their protocol -/

/-- The match options of the tokens of one `iptables` line each follow a protocol that
    accepts them: `--dport` after `-p tcp` or `-p udp`, `--icmp-type` after `-p icmp` in
    IPv4, `--icmpv6-type` after `-p icmpv6` in IPv6. -/
def iptOptionsOk (f : Family) : Option Str → List Str → Bool
  | proto, flag :: v :: rest =>
    if flag = key "-p" then iptOptionsOk f (some v) rest
    else if flag = key "--dport" then
      (proto = some (key "tcp") || proto = some (key "udp")) && iptOptionsOk f proto rest
    else if flag = key "--icmp-type" then
      (f = .four && proto = some (key "icmp")) && iptOptionsOk f proto rest
    else if flag = key "--icmpv6-type" then
      (f = .six && proto = some (key "icmpv6")) && iptOptionsOk f proto rest
    else iptOptionsOk f proto (v :: rest)
  | _, _ => true

/-- Every line of an `iptables-restore` program passes `iptOptionsOk`. -/
def iptProgramOptionsOk (f : Family) (program : Str) : Bool :=
  (Str.split program '\n').all fun line => iptOptionsOk f none (Str.split line ' ')

/-- The match options of the tokens of one `nft` statement each follow a protocol that
    accepts them: `<p> dport` with `p` in `tcp`, `udp`; `icmp type` in IPv4 and
    `icmpv6 type` in IPv6. -/
def nftOptionsOk (f : Family) : List Str → Bool
  | a :: b :: rest =>
    (b ≠ key "dport" || a = key "tcp" || a = key "udp") &&
      (a ≠ key "icmp" || b ≠ key "type" || f = .four) &&
      (a ≠ key "icmpv6" || b ≠ key "type" || f = .six) && nftOptionsOk f (b :: rest)
  | _ => true

/-- Every line of an `nft` program passes `nftOptionsOk`. -/
def nftProgramOptionsOk (f : Family) (program : Str) : Bool :=
  (Str.split program '\n').all fun line => nftOptionsOk f (Str.split line ' ')

/-- A rule as the configuration writer emits it: `action=accept proto=icmp icmptype=128`. -/
def icmpTypeRule : Dict :=
  Dict.ofList [(key "action", key "accept"), (key "proto", key "icmp"), (key "icmptype", key "128")]

/-- A rule as the configuration writer emits it: `action=accept specialtarget=dns proto=icmp`. -/
def dnsIcmpRule : Dict :=
  Dict.ofList [(key "action", key "accept"), (key "specialtarget", key "dns"),
    (key "proto", key "icmp")]

/-- The resolver configuration of the two programs below: one nameserver of each family. -/
def twoNameservers : Env := ⟨"nameserver 10.139.1.1\nnameserver fd09::1\n".toList, fun _ _ => .ok []⟩

set_option maxRecDepth 20000 in
/-- Both backends emit a match option the family's tool rejects for a configuration the
    writer accepts: `--icmp-type` after `-p icmpv6` for IPv6 in the legacy backend, and
    `icmp dport 53` for a DNS rule with protocol `icmp` in the nftables backend. -/
theorem options_after_protocol_violated :
    Iptables.prepare_rules twoNameservers (Iptables.chain_for_addr "fd00::1".toList)
        [icmpTypeRule, Dict.single (key "action") (key "drop")] .six =
      .ok "*filter\n-A qbs-fd00--1 -p icmpv6 --icmp-type 128 -j ACCEPT\n-A qbs-fd00--1 -j DROP\nCOMMIT\n".toList ∧
    iptProgramOptionsOk .six
      "*filter\n-A qbs-fd00--1 -p icmpv6 --icmp-type 128 -j ACCEPT\n-A qbs-fd00--1 -j DROP\nCOMMIT\n".toList
      = false ∧
    Nftables.prepare_rules twoNameservers (Nftables.chain_for_addr "10.137.0.5".toList)
        [dnsIcmpRule] .four =
      .ok "flush chain ip qubes-firewall qbs-10-137-0-5\ntable ip qubes-firewall \x7b\n  chain qbs-10-137-0-5 \x7b\n    ip protocol icmp ip daddr \x7b 10.139.1.1/32 \x7d icmp dport 53 accept\n  \x7d\n\x7d\n".toList ∧
    nftProgramOptionsOk .four
      "flush chain ip qubes-firewall qbs-10-137-0-5\ntable ip qubes-firewall \x7b\n  chain qbs-10-137-0-5 \x7b\n    ip protocol icmp ip daddr \x7b 10.139.1.1/32 \x7d icmp dport 53 accept\n  \x7d\n\x7d\n".toList
      = false := by
  refine ⟨?_, by decide, ?_, by decide⟩ <;> decide

/-! ## Section 2: A program only rewrites its own chain -/

/-- A name that is one token to both tools: no whitespace, no `;`, `#`, quote or brace. -/
def OneWord (s : Str) : Prop := Str.Only (· ∉ " \t\n\r;#\"\x7b\x7d".toList) s

instance : DecidablePred OneWord := fun s => inferInstanceAs (Decidable (Str.Only _ s))

/-- An `iptables-restore` program that only appends to `chain`: `*filter`, then lines
    `-A <chain> ...`, then `COMMIT`. -/
def AppendsOnlyTo (chain program : Str) : Prop :=
  OneWord chain ∧ ∃ body, Str.split program '\n' = key "*filter" :: (body ++ [key "COMMIT", []]) ∧
    ∀ line ∈ body, Str.startswith line (key "-A " ++ chain ++ [' ']) = true

section Iptables

open Iptables

variable {env : Env} {dns : List Str} {chain : Str} {family : Family} {rule : Dict}

theorem startswith_join {rest : List Str} (h : rest ≠ []) :
    Str.startswith (Str.join [' '] (key "-A" :: chain :: rest)) (key "-A " ++ chain ++ [' ']) =
      true := by
  obtain ⟨r, rs, rfl⟩ := List.exists_cons_of_ne_nil h
  rw [Str.join_cons, Str.startswith, List.isPrefixOf_iff_prefix]
  exact ⟨r ++ (rs.map (' ' :: ·)).flatten, by simp [key]⟩

/-- The text of a rule that raises nothing, without line breaks in its values: lines
    without line breaks, each starting with `-A <chain> `. -/
theorem ruleLines_lines (hchain : Str.Only (· ≠ '\n') chain)
    (hrule : rule.ValuesOnly (· ≠ '\n')) (henv : env.ResolvesOnly (· ≠ '\n') family)
    (hdns : ∀ a ∈ dns, Str.Only (· ≠ '\n') a) {s : Str}
    (h : ruleLines env dns chain family rule = .ok s) :
    ∃ L : List Str, s = (L.map (· ++ ['\n'])).flatten ∧
      ∀ l ∈ L, Str.Only (· ≠ '\n') l ∧
        Str.startswith l (key "-A " ++ chain ++ [' ']) = true := by
  obtain ⟨ds, -, hds, hm⟩ := ruleLines_ok h
  revert hm
  cases hsel : effectiveSelectors dns family rule ds with
  | none => rintro rfl; exact ⟨[], rfl, by simp⟩
  | some sel =>
    rintro (⟨-, rfl⟩ | ⟨a, ha, rfl⟩)
    · exact ⟨[], rfl, by simp⟩
    refine ⟨(loopPairs sel).map fun pd => Str.join [' ']
      (lineTokens chain pd.2 pd.1 sel.dstports (rule.get (key "icmptype")) a), ?_, ?_⟩
    · simp only [linesOf, iptLine_eq_join, List.map_map, Function.comp_def]
    · intro l hl
      obtain ⟨pd, hpd, rfl⟩ := List.mem_map.1 hl
      have hsel' := effectiveSelectors_only (by decide) hrule henv hdns hds hsel
      have hup : Str.Only (· ≠ '\n') (Str.upper a) :=
        Str.only_upper (fun c (hc : c ≠ '\n') => Str.toUpper_ne hc (by decide))
          (hrule.get (Dict.get_of_getItem ha))
      exact ⟨Str.only_join (by decide) (lineTokens_only (by decide) hchain hsel' hpd
          (fun t ht => hrule.get ht) hup),
        startswith_join (by simp)⟩

/-- The legacy backend's program, over values without line breaks and a chain name of
    one line, only appends to its chain. -/
theorem prepare_rules_appendsOnly (hchain : OneWord chain)
    {rules : List Dict} (hrules : ∀ r ∈ rules, r.ValuesOnly (· ≠ '\n'))
    (henv : env.ResolvesOnly (· ≠ '\n') family) {P : Str}
    (h : prepare_rules env chain rules family = .ok P) : AppendsOnlyTo chain P := by
  obtain ⟨dns, body, hdns, hbody, rfl⟩ := prepare_rules_ok h
  have hchain' : Str.Only (· ≠ '\n') chain :=
    hchain.imp fun c hc e => hc (e ▸ by decide)
  have hdns' : ∀ a ∈ dns, Str.Only (· ≠ '\n') a :=
    fun a ha => (dnsList_no_space hdns a ha).imp fun _ hc => hc.2
  have hlines : ∀ {rs : List Dict} {bs : List Str}, (∀ r ∈ rs, r.ValuesOnly (· ≠ '\n')) →
      List.Forall₂ (fun r s => ruleLines env dns chain family r = .ok s) rs bs →
      ∃ L : List Str, bs.flatten = (L.map (· ++ ['\n'])).flatten ∧ ∀ l ∈ L,
        Str.Only (· ≠ '\n') l ∧ Str.startswith l (key "-A " ++ chain ++ [' ']) = true := by
    intro rs bs hrs hf
    induction hf with
    | nil => exact ⟨[], rfl, by simp⟩
    | @cons r b rs bs hrb _ ih =>
      obtain ⟨L₁, rfl, h₁⟩ := ruleLines_lines hchain' (hrs r (List.mem_cons_self _ _)) henv hdns' hrb
      obtain ⟨L₂, h₂e, h₂⟩ := ih fun r' hr' => hrs r' (List.mem_cons_of_mem _ hr')
      refine ⟨L₁ ++ L₂, by simp [h₂e], fun l hl => ?_⟩
      rcases List.mem_append.1 hl with hl | hl
      · exact h₁ l hl
      · exact h₂ l hl
  obtain ⟨L, hL, hLs⟩ := hlines hrules hbody
  refine ⟨hchain, L, ?_, fun l hl => (hLs l hl).2⟩
  rw [hL, split_restore_input fun l hl h => (hLs l hl).1 '\n' h rfl]

end Iptables

/-- An `nft` program that only flushes `chain` and adds rules to it: the flush, then one
    table block holding one chain block of plain statements. -/
def FillsOnly (family : Family) (chain program : Str) : Prop :=
  OneWord chain ∧ ∃ stmts, program = Nftables.chainProgram family chain stmts ∧
    ∀ st ∈ stmts, Nftables.Plain st

/-- The nftables backend's program, over plain values, addresses and nameservers, only
    flushes and fills its chain. -/
theorem prepare_rules_fillsOnly {env : Env} {chain : Str} {family : Family}
    (hchain : OneWord chain) {rules : List Dict}
    (hrules : ∀ r ∈ rules, r.ValuesOnly Nftables.ValueChar)
    (henv : env.ResolvesOnly Nftables.ValueChar family)
    (hns : ∀ N, dns_addresses env.resolvConf (some family) = .ok N →
      ∀ a ∈ N, Str.Only Nftables.ValueChar a) {P : Str}
    (h : Nftables.prepare_rules env chain rules family = .ok P) : FillsOnly family chain P := by
  obtain ⟨dns, body, hdns, hbody, rfl⟩ := Nftables.prepare_rules_ok h
  refine ⟨hchain, body.flatten, rfl, fun st hst => ?_⟩
  obtain ⟨ss, hss, hst⟩ := List.mem_flatten.1 hst
  obtain ⟨r, hr, hrs⟩ := exists_of_forall₂_mem hbody hss
  refine Nftables.ruleStatements_plain (hrules r hr) henv (fun a ha => ?_) hrs st hst
  obtain ⟨N, hN, rfl⟩ := map_eq_ok.1 hdns
  obtain ⟨n, hn, rfl⟩ := List.mem_map.1 ha
  exact Str.only_append.2 ⟨hns N hN n hn, by cases family <;> decide⟩

theorem oneWord_iptables_chain {addr : Str} (h : OneWord addr) :
    OneWord (Iptables.chain_for_addr addr) :=
  Str.only_append.2 ⟨by decide, (Str.only_replace (Str.only_replace h (by decide)) (by decide)).mono
    (List.drop_subset _ _)⟩

theorem oneWord_nftables_chain {addr : Str} (h : OneWord addr) :
    OneWord (Nftables.chain_for_addr addr) :=
  Str.only_append.2 ⟨by decide, Str.only_replace (Str.only_replace h (by decide)) (by decide)⟩

/-- For a source address that is one word, the program of either backend rewrites only the
    address's own chain, when no option value, resolved address or (for nftables)
    nameserver breaks a line, a statement or a brace: the legacy program is `*filter`,
    lines `-A <chain> ...` and `COMMIT`; the nftables program flushes the chain and fills
    it with plain statements. -/
theorem prepare_rules_rewrites_own_chain (env : Env) (addr : Str) (family : Family)
    (rules : List Dict) (haddr : OneWord addr) :
    ((∀ r ∈ rules, r.ValuesOnly (· ≠ '\n')) → env.ResolvesOnly (· ≠ '\n') family →
      ∀ P, Iptables.prepare_rules env (Iptables.chain_for_addr addr) rules family = .ok P →
        AppendsOnlyTo (Iptables.chain_for_addr addr) P) ∧
    ((∀ r ∈ rules, r.ValuesOnly Nftables.ValueChar) →
      env.ResolvesOnly Nftables.ValueChar family →
      (∀ N, dns_addresses env.resolvConf (some family) = .ok N →
        ∀ a ∈ N, Str.Only Nftables.ValueChar a) →
      ∀ P, Nftables.prepare_rules env (Nftables.chain_for_addr addr) rules family = .ok P →
        FillsOnly family (Nftables.chain_for_addr addr) P) :=
  ⟨fun hr he _ h => prepare_rules_appendsOnly (oneWord_iptables_chain haddr) hr he h,
    fun hr he hn _ h => prepare_rules_fillsOnly (oneWord_nftables_chain haddr) hr he hn h⟩

/-- The rule `action=drop` over the address `10.137.0.5`: both programs rewrite only its chain. -/
theorem rewrites_own_chain_drop :
    OneWord "10.137.0.5".toList ∧
      AppendsOnlyTo (Iptables.chain_for_addr "10.137.0.5".toList)
        "*filter\n-A qbs-10-137-0-5 -j DROP\nCOMMIT\n".toList := by
  refine ⟨by decide, (prepare_rules_rewrites_own_chain twoNameservers "10.137.0.5".toList .four
    [Dict.single (key "action") (key "drop")] (by decide)).1 ?_ ?_ _ (by decide)⟩
  · intro r hr
    rw [List.mem_singleton.1 hr]
    decide
  · intro _ _ h
    cases h
    exact fun _ h => absurd h (List.not_mem_nil _)

/-- A rule value with a line break, as `read_rules` can return it (`action=accept⏎-F`),
    adds the command `-F`, which flushes every chain of the table. -/
theorem newline_value_flushes_table :
    Iptables.prepare_rules twoNameservers (Iptables.chain_for_addr "10.137.0.5".toList)
        [Dict.single (key "action") (key "accept\n-F")] .four =
      .ok "*filter\n-A qbs-10-137-0-5 -j ACCEPT\n-F\nCOMMIT\n".toList ∧
    ¬ AppendsOnlyTo (Iptables.chain_for_addr "10.137.0.5".toList)
      "*filter\n-A qbs-10-137-0-5 -j ACCEPT\n-F\nCOMMIT\n".toList := by
  refine ⟨by decide, fun ⟨_, body, hsplit, hall⟩ => ?_⟩
  have hs : Str.split "*filter\n-A qbs-10-137-0-5 -j ACCEPT\n-F\nCOMMIT\n".toList '\n' =
      key "*filter" :: ([key "-A qbs-10-137-0-5 -j ACCEPT", key "-F"] ++ [key "COMMIT", []]) := by
    decide
  rw [hs, List.cons.injEq] at hsplit
  have hb := List.append_cancel_right hsplit.2
  subst hb
  exact absurd (hall (key "-F") (by decide)) (by decide)

end QubesFirewall
