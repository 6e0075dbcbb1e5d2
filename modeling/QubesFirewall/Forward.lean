import QubesFirewall.Watch
import QubesFirewall.IptablesMeaning

/-! # What the forward chain does with a packet from a client

    The tables the worker keeps, read as the kernel applies them to a new packet, one that
    opens a connection (nftables accepts the packets of an established one before any jump).
    The forward chain of the packet's family sends it to the chain of each jump for its source
    address in turn; the first rule of that chain that holds of the packet decides, and a
    packet no chain decides gets the verdict the forward chain ends with, which `init` sets:
    `-A QBS-FORWARD -j DROP` for the legacy backend, the chain's `policy drop` for nftables.
    A jump matches a source when it names the same address, however the two texts spell it.

    Over it, what a rule list means for a packet (`verdict`): the action of its first rule
    that matches, as `Packet` defines matching.  While `main` waits in `read_watch`, the
    forward chain gives a new packet from an address with no update in progress the verdict
    of the rule set the store holds for it, in the backend's words, and drops every new
    packet from such an address whose stored rule set does not parse, does not translate,
    or is refused.
-/

namespace QubesFirewall

/-! ## Section 1: The forward chain, read as a packet filter -/

/-- The verdict one rule the worker keeps in a chain gives a packet: the target of a legacy
    `-A` line whose options all hold of it, or the verdict of an nftables statement whose
    matches all hold. -/
def Backend.ruleVerdict (inPrefix : Str → Str → Bool) {family : Family} (pkt : Packet family) :
    Backend → Str → Option Str
  | .iptables, line => Iptables.lineTarget inPrefix pkt line
  | .nftables, st => Nftables.stmtVerdict inPrefix pkt (Nftables.words st)

/-- What the forward chain of a table does with a new packet from the address `src` names:
    the chain of each jump for that address in turn, first jump first, and in it the first
    rule that holds of the packet; a packet no chain decides gets the verdict the forward
    chain ends with (`none`: the chain returns it to the kernel's `FORWARD` chain). -/
def Table.forward (b : Backend) (inPrefix : Str → Str → Bool) (t : Table) (src : Str)
    {family : Family} (pkt : Packet family) : Option Str :=
  ((t.jumps.filter fun j => sameHost j.1 src).findSome? fun j =>
      (t.chains j.2).bind (·.findSome? (b.ruleVerdict inPrefix pkt))).or t.policy

/-- What a rule list means for a packet: the action of its first rule that matches, and a
    drop when none does. -/
def verdict (inPrefix : Str → Str → Bool) (env : Env) {family : Family} (N : List Str)
    (rules : List Dict) (pkt : Packet family) : Str :=
  ((firstMatch inPrefix env N rules pkt).map actionOf).getD (key "drop")

section Forward

variable {b : Backend} {inPrefix : Str → Str → Bool}

/-- An installed address's packets go through its chain alone, and then to the verdict the
    forward chain ends with. -/
theorem Installed.forward {s : Sys} {a : Str} {rules : List Str} (h : Installed b s a rules)
    (pkt : Packet (familyOf a)) :
    (s.kernel (familyOf a)).forward b inPrefix a pkt =
      (rules.findSome? (b.ruleVerdict inPrefix pkt)).or (s.kernel (familyOf a)).policy := by
  rw [Table.forward, h.1, Nftables.findSome?_singleton, h.2.2, Option.some_bind]

/-- A packet from a source without a jump gets the verdict the forward chain ends with. -/
theorem Table.forward_of_no_jump {t : Table} {src : Str}
    (h : t.jumps.filter (fun j => sameHost j.1 src) = [])
    {family : Family} (pkt : Packet family) :
    t.forward b inPrefix src pkt = t.policy := by
  rw [Table.forward, h]
  rfl

/-- Functions that agree on a list's elements find the same first value in it. -/
theorem findSome?_congr_mem {α β : Type} {f g : α → Option β} :
    ∀ {l : List α}, (∀ x ∈ l, f x = g x) → l.findSome? f = l.findSome? g
  | [], _ => rfl
  | x :: l, h => by
    rw [List.findSome?_cons, List.findSome?_cons, h x (List.mem_cons_self _ _),
      findSome?_congr_mem fun y hy => h y (List.mem_cons_of_mem _ hy)]

/-- Tables that give a source the same jumps, the same contents to the chains they name, and
    the same final verdict give its packets the same verdict. -/
theorem Table.forward_congr {t t' : Table} {src : Str}
    (hj : t'.jumps.filter (fun j => sameHost j.1 src) = t.jumps.filter fun j => sameHost j.1 src)
    (hc : ∀ j ∈ t.jumps.filter (fun j => sameHost j.1 src), t'.chains j.2 = t.chains j.2)
    (hp : t'.policy = t.policy) {family : Family} (pkt : Packet family) :
    t'.forward b inPrefix src pkt = t.forward b inPrefix src pkt := by
  rw [Table.forward, Table.forward, hj, hp]
  congr 1
  exact findSome?_congr_mem fun j hj => by rw [hc j hj]

end Forward

/-! ## Section 2: The rules a translation keeps judge as the rule list -/

/-- Leaving out elements the function sends to `none` keeps the first value it finds. -/
theorem findSome?_filter_of_none {α β : Type} {p : α → Bool} {f : α → Option β}
    (h : ∀ x, p x = false → f x = none) : ∀ l : List α, (l.filter p).findSome? f = l.findSome? f
  | [] => rfl
  | x :: l => by
    rw [List.filter_cons, List.findSome?_cons]
    cases hp : p x
    · rw [if_neg (by simp), h x hp, findSome?_filter_of_none h l]
    · rw [if_pos rfl, List.findSome?_cons, findSome?_filter_of_none h l]

namespace Iptables

variable {inPrefix : Str → Str → Bool} {env : Env} {family : Family} {N : List Str} {chain : Str}

/-- The rules a program that only appends to `chain` keeps there are its `-A` lines. -/
theorem chainRules_of_split {P : Str} {body : List Str}
    (hs : Str.split P '\n' = key "*filter" :: (body ++ [key "COMMIT", []]))
    (hb : ∀ line ∈ body, Str.startswith line (key "-A " ++ chain ++ [' ']) = true) :
    Backend.iptables.chainRules chain P = body := by
  have hf : Str.startswith (key "*filter") (key "-A " ++ chain ++ [' ']) = false := rfl
  have hC : Str.startswith (key "COMMIT") (key "-A " ++ chain ++ [' ']) = false := rfl
  have hn : Str.startswith [] (key "-A " ++ chain ++ [' ']) = false := rfl
  simp only [Backend.chainRules, hs, List.filter_cons, List.filter_append, hf, hC, hn,
    List.filter_eq_self.2 hb]
  simp

/-- The lines a legacy translation keeps in its chain give a packet the action, in capitals,
    of the first rule that matches it. -/
theorem chainRules_target (hfull : FullHostPrefixes inPrefix family)
    (hN : dns_addresses env.resolvConf (some family) = .ok N) (hNw : ∀ a ∈ N, OneToken a)
    {rules : List Dict} (hrules : ∀ r ∈ rules, LawfulRule inPrefix family N r)
    (hchain : OneWord chain) (htok : OneToken chain) (henv : env.ResolvesOnly TokenChar family)
    {P : Str} (h : prepare_rules env chain rules family = .ok P) (pkt : Packet family) :
    (Backend.iptables.chainRules chain P).findSome? (lineTarget inPrefix pkt) =
      (firstMatch inPrefix env N rules pkt).map (Str.upper ∘ actionOf) := by
  obtain ⟨-, body', hs, hb⟩ := prepare_rules_appendsOnly hchain
    (fun r hr kv hkv => ((hrules r hr).oneToken kv hkv).imp fun _ hc => hc.blank.2)
    (fun h' addrs he a ha => (henv h' addrs he a ha).imp fun _ hc => hc.blank.2) h
  obtain ⟨dns, body, hdns, hbody, rfl⟩ := prepare_rules_ok h
  obtain ⟨N', hN', rfl⟩ := map_eq_ok.1 hdns
  rw [hN'] at hN
  cases hN
  obtain ⟨L, hL, hn, ht⟩ := body_target hfull htok henv hNw hrules hbody
  rw [hL, split_restore_input hn] at hs
  rw [chainRules_of_split (by rw [hL, split_restore_input hn]) (List.append_cancel_right
    (List.cons.inj hs).2 ▸ hb)]
  exact ht

/-- The line of the drop fallback. -/
theorem ruleLines_dropAll (env : Env) (dns : List Str) (chain : Str) (family : Family) :
    ruleLines env dns chain family dropAll =
      .ok ("-A ".toList ++ chain ++ " -j ".toList ++ Str.upper (key "drop") ++ ['\n']) := by
  have h : ruleLines env dns chain family dropAll =
      .ok [iptLine chain none none none none (key "drop")].flatten := by
    cases family <;> rfl
  rw [h, List.flatten_cons, List.flatten_nil, List.append_nil]
  simp only [iptLine, opt, List.append_nil]

/-- The drop fallback keeps in a one-word chain one line, which drops every packet. -/
theorem fallback_target (hchain : OneWord chain) {P : Str}
    (h : prepare_rules env chain [dropAll] family = .ok P) (pkt : Packet family) :
    (Backend.iptables.chainRules chain P).findSome? (lineTarget inPrefix pkt) =
      some (Str.upper (key "drop")) := by
  obtain ⟨dns, body, -, hbody, rfl⟩ := prepare_rules_ok h
  obtain ⟨s, rfl⟩ : ∃ s, body = [s] := by
    cases hbody with
    | cons _ hrest => cases hrest; exact ⟨_, rfl⟩
  obtain rfl : s = "-A ".toList ++ chain ++ " -j ".toList ++ Str.upper (key "drop") ++ ['\n'] := by
    cases hbody with
    | cons hr _ => rw [ruleLines_dropAll] at hr; exact (Except.ok.inj hr).symm
  have hline : '\n' ∉ "-A ".toList ++ chain ++ " -j ".toList ++ Str.upper (key "drop") := by
    simp only [List.mem_append, not_or]
    exact ⟨⟨⟨by decide, hchain.no_newline⟩, by decide⟩, by decide⟩
  have hb : ∀ l ∈ ["-A ".toList ++ chain ++ " -j ".toList ++ Str.upper (key "drop")],
      Str.startswith l (key "-A " ++ chain ++ [' ']) = true := by
    refine List.forall_mem_singleton.2 (List.isPrefixOf_iff_prefix.2
      ⟨key "-j " ++ Str.upper (key "drop"), ?_⟩)
    simp only [List.append_assoc]
    rfl
  rw [show [("-A ".toList ++ chain ++ " -j ".toList ++ Str.upper (key "drop")) ++ ['\n']] =
      ["-A ".toList ++ chain ++ " -j ".toList ++ Str.upper (key "drop")].map (· ++ ['\n']) from rfl,
    chainRules_of_split (split_restore_input (List.forall_mem_singleton.2 hline)) hb,
    Nftables.findSome?_singleton, lineTarget,
    show "-A ".toList ++ chain ++ " -j ".toList ++ Str.upper (key "drop") =
      key "-A" ++ ' ' :: (chain ++ ' ' :: (key "-j" ++ ' ' :: Str.upper (key "drop"))) by
        simp only [List.append_assoc]; rfl,
    Str.split_append_sep (by decide), Str.split_append_sep hchain.no_space,
    Str.split_append_sep (by decide), Str.split_of_not_mem (by decide)]
  rfl

end Iptables

namespace Nftables

variable {inPrefix : Str → Str → Bool} {env : Env} {family : Family} {N : List Str} {chain : Str}

/-- The statements the backend keeps in a chain judge a packet as the chain block does: the
    lines it leaves out hold no word. -/
theorem findSome?_chainRules (pkt : Packet family) (chain P : Str) :
    (Backend.nftables.chainRules chain P).findSome? (fun st => stmtVerdict inPrefix pkt (words st)) =
      programVerdict inPrefix pkt chain P :=
  findSome?_filter_of_none (fun st hst => by
    rw [decide_eq_false_iff_not, not_not] at hst
    rw [hst, stmtVerdict_nil]) _

/-- The statements an nftables translation keeps in its chain give a packet the action of the
    first rule that matches it. -/
theorem chainRules_verdict (hfull : FullHostPrefixes inPrefix family)
    (hN : dns_addresses env.resolvConf (some family) = .ok N) (hNw : ∀ a ∈ N, Str.Only WordChar a)
    {rules : List Dict} (hrules : ∀ r ∈ rules, LawfulRule r) (hchain : '\n' ∉ chain)
    (henv : env.ResolvesOnly WordChar family) {P : Str}
    (h : prepare_rules env chain rules family = .ok P) (pkt : Packet family) :
    (Backend.nftables.chainRules chain P).findSome? (fun st => stmtVerdict inPrefix pkt (words st)) =
      (firstMatch inPrefix env N rules pkt).map actionOf := by
  rw [findSome?_chainRules]
  obtain ⟨dns, body, hdns, hbody, rfl⟩ := prepare_rules_ok h
  obtain ⟨N', hN', rfl⟩ := map_eq_ok.1 hdns
  rw [hN'] at hN
  cases hN
  have hline : ∀ st ∈ body.flatten, '\n' ∉ st := by
    intro st hst hn
    obtain ⟨ss, hss, hst⟩ := List.mem_flatten.1 hst
    obtain ⟨r, hr, hrs⟩ := exists_of_forall₂_mem hbody hss
    refine (ruleStatements_plain (fun kv hkv => ((hrules r hr).words kv hkv).2.imp fun _ hc => hc.1)
      (fun h' addrs he a ha => (henv h' addrs he a ha).imp fun _ hc => hc.1) (fun a ha => ?_)
      hrs st hst).1 '\n' hn (by decide)
    obtain ⟨n, hn, rfl⟩ := List.mem_map.1 ha
    exact Str.only_append.2 ⟨(hNw n hn).imp fun _ hc => hc.1, by cases family <;> decide⟩
  exact (programVerdict_chainProgram hchain hline).trans (body_verdict hfull henv hNw hrules hbody)

/-- The drop fallback keeps one statement in its chain, which drops every packet. -/
theorem fallback_verdict (hchain : '\n' ∉ chain) {P : Str}
    (h : prepare_rules env chain [dropAll] family = .ok P) (pkt : Packet family) :
    (Backend.nftables.chainRules chain P).findSome? (fun st => stmtVerdict inPrefix pkt (words st)) =
      some (key "drop") := by
  rw [findSome?_chainRules]
  obtain ⟨dns, body, -, hbody, rfl⟩ := prepare_rules_ok h
  obtain ⟨ss, rfl⟩ : ∃ ss, body = [ss] := by
    cases hbody with
    | cons _ hrest => cases hrest; exact ⟨_, rfl⟩
  have hss : ss = [" drop".toList] := by
    cases hbody with
    | cons hr _ =>
      have e : ruleStatements env dns family dropAll = .ok [" drop".toList] := by
        cases family <;> rfl
      rw [e] at hr
      exact (Except.ok.inj hr).symm
  subst hss
  rw [programVerdict_chainProgram hchain (by decide), List.flatten_cons, List.flatten_nil,
    List.append_nil, Nftables.findSome?_singleton, show words " drop".toList = [key "drop"] from rfl,
    stmtVerdict_single]

end Nftables

/-! ## Section 3: Both backends -/

/-- The characters of one word of a rule line: a token character of `iptables-restore` for
    the legacy backend, `nft`'s word characters for nftables. -/
def Backend.WordChar : Backend → Char → Prop
  | .iptables, c => Iptables.TokenChar c
  | .nftables, c => Nftables.WordChar c

/-- The rules whose translation keeps the first-match meaning in each backend. -/
def Backend.LawfulRule (inPrefix : Str → Str → Bool) (family : Family) (N : List Str) :
    Backend → Dict → Prop
  | .iptables, r => Iptables.LawfulRule inPrefix family N r
  | .nftables, r => Nftables.LawfulRule r

instance instDecidablePredWordChar (b : Backend) : DecidablePred b.WordChar := fun c =>
  match b with
  | .iptables => inferInstanceAs (Decidable (Iptables.TokenChar c))
  | .nftables => inferInstanceAs (Decidable (Nftables.WordChar c))

instance instDecidableLawfulRule (inPrefix : Str → Str → Bool) (family : Family) (N : List Str)
    (b : Backend) (r : Dict) : Decidable (b.LawfulRule inPrefix family N r) :=
  match b with
  | .iptables => inferInstanceAs (Decidable (Iptables.LawfulRule inPrefix family N r))
  | .nftables => inferInstanceAs (Decidable (Nftables.LawfulRule r))

theorem Backend.valueChar_of_wordChar {b : Backend} {c : Char} (h : b.WordChar c) : b.ValueChar c := by
  cases b
  · exact h.2.2.1
  · exact h.1

/-- A resolver that gives addresses of the backend's word characters gives addresses of its
    value characters. -/
theorem Env.ResolvesOnly.valueChar {b : Backend} {env : Env} {f : Family}
    (h : env.ResolvesOnly b.WordChar f) : env.ResolvesOnly b.ValueChar f :=
  fun h' addrs he x hx => (h h' addrs he x hx).imp fun _ => Backend.valueChar_of_wordChar

/-- Nameservers of the backend's word characters are of its value characters. -/
theorem dns_addresses_valueChar {b : Backend} {env : Env}
    (h : ∀ f N, dns_addresses env.resolvConf (some f) = .ok N → ∀ n ∈ N, Str.Only b.WordChar n) :
    ∀ f N, dns_addresses env.resolvConf (some f) = .ok N → ∀ n ∈ N, Str.Only b.ValueChar n :=
  fun f N hN n hn => (h f N hN n hn).imp fun _ => Backend.valueChar_of_wordChar

/-- The chain of an address literal is one word, and one token of `iptables-restore`. -/
theorem Backend.chain_of_literal (b : Backend) {a : Str} (ha : (hostOf a).isSome) :
    OneWord (b.chain_for_addr a) ∧ Iptables.OneToken (b.chain_for_addr a) := by
  have hA := only_addrChars_of_hostOf ha
  have ht : Iptables.OneToken a :=
    hA.imp fun c hc => (by decide : ∀ c ∈ addrChars, Iptables.TokenChar c) c hc
  refine ⟨b.oneWord_chain (hA.imp fun c hc =>
    (by decide : ∀ c ∈ addrChars, c ∉ " \t\n\r;#\"\x7b\x7d".toList) c hc), ?_⟩
  cases b
  · exact Str.only_append.2 ⟨by decide, (Str.only_replace (Str.only_replace ht (by decide))
      (by decide)).mono (List.drop_subset _ _)⟩
  · exact Str.only_append.2 ⟨by decide, Str.only_replace (Str.only_replace ht (by decide)) (by decide)⟩

section Backends

variable {b : Backend} {inPrefix : Str → Str → Bool} {env : Env} {family : Family} {N : List Str}
  {c : Str}

/-- The rules a translation keeps in the chain of an address literal give every packet the
    action of the first rule of the list that matches it, in the backend's words. -/
theorem Backend.chainRules_verdict (hfull : FullHostPrefixes inPrefix family)
    (hN : dns_addresses env.resolvConf (some family) = .ok N) (hNw : ∀ n ∈ N, Str.Only b.WordChar n)
    {rules : List Dict} (hrules : ∀ r ∈ rules, b.LawfulRule inPrefix family N r) {a : Str}
    (ha : (hostOf a).isSome) (henv : env.ResolvesOnly b.WordChar family) {P : Str}
    (h : b.prepare_rules env (b.chain_for_addr a) rules family = .ok P) (pkt : Packet family) :
    (b.chainRules (b.chain_for_addr a) P).findSome? (b.ruleVerdict inPrefix pkt) =
      (firstMatch inPrefix env N rules pkt).map (b.verdictOf ∘ actionOf) := by
  obtain ⟨hc, ht⟩ := b.chain_of_literal ha
  cases b
  · exact Iptables.chainRules_target hfull hN hNw hrules hc ht henv h pkt
  · exact Nftables.chainRules_verdict hfull hN hNw hrules hc.no_newline henv h pkt

/-- The rule a stored policy becomes matches every packet. -/
theorem ruleMatches_policy (inPrefix : Str → Str → Bool) (env : Env) (N : List Str) (p : Str)
    (pkt : Packet family) : ruleMatches inPrefix env N (Dict.single "action".toList p) pkt = true :=
  rfl

/-- A rule list ending with its policy decides every packet, by the verdict of the list. -/
theorem firstMatch_policy (rules : List Dict) (p : Str) (pkt : Packet family) :
    (firstMatch inPrefix env N (rules ++ [Dict.single "action".toList p]) pkt).map
      (b.verdictOf ∘ actionOf) =
      some (b.verdictOf (verdict inPrefix env N (rules ++ [Dict.single "action".toList p]) pkt)) := by
  obtain ⟨r, hr⟩ : ∃ r, firstMatch inPrefix env N (rules ++ [Dict.single "action".toList p]) pkt = some r :=
    Option.isSome_iff_exists.1 (by
      rw [firstMatch, List.find?_append]
      cases rules.find? _ with
      | some r => rfl
      | none =>
        rw [Option.none_or, List.find?_cons_of_pos (p := fun x => ruleMatches inPrefix env N x pkt) _
          (ruleMatches_policy inPrefix env N p pkt)]
        rfl)
  rw [verdict, hr]
  rfl

/-- The program of the drop fallback, in a one-word chain, drops every packet. -/
theorem Backend.dropAll_verdict (hc : OneWord c) {P : Str}
    (h : b.prepare_rules env c [dropAll] family = .ok P) (pkt : Packet family) :
    (b.chainRules c P).findSome? (b.ruleVerdict inPrefix pkt) = some (b.verdictOf (key "drop")) := by
  cases b
  · exact Iptables.fallback_target hc h pkt
  · exact Nftables.fallback_verdict hc.no_newline h pkt

/-- The drop fallback, in a one-word chain, drops every packet, or, when it did not translate
    and left the chain empty, leaves it to a forward chain that ends with a drop. -/
theorem Backend.fallback_forward (b : Backend) (hc : OneWord c) (pkt : Packet family) :
    ((b.fallbackRules env c family).findSome? (b.ruleVerdict inPrefix pkt)).or
      (some (b.verdictOf (key "drop"))) = some (b.verdictOf (key "drop")) := by
  unfold Backend.fallbackRules
  split
  · next P h => rw [Backend.dropAll_verdict hc h pkt]; rfl
  · rfl

end Backends

/-! ## Section 4: While `main` waits -/

section Waiting

variable {b : Backend} {env : Env} {reject : Str → Option Str}

/-- While `main` waits with no event queued, a new packet from an address without `/` and
    with no update in progress, whose directory holds a rule set in the writers' layout, gets
    the verdict of that rule set, its policy last, in the backend's words, when the backend
    takes the program of that rule set and its rules have the shape the translation keeps
    the meaning of. -/
theorem forward_of_items (hacc : AcceptsOwn b env reject)
    (henv : ∀ f, env.ResolvesOnly b.WordChar f)
    (hns : ∀ f N, dns_addresses env.resolvConf (some f) = .ok N → ∀ n ∈ N, Str.Only b.WordChar n)
    {k₀ : Kernel} (hk₀ : ∀ f, (k₀ f).jumps = []) {db₀ : QubesDB} {ls : List Label}
    (hw : WellFormedCalls b (Daemon.calls (Oracle.rejecting reject) b env ls (Daemon.boot k₀ db₀)))
    (hc : Daemon.WritesWatched (Oracle.rejecting reject) b env ls (Daemon.boot k₀ db₀))
    (hpc : (Daemon.exec (Oracle.rejecting reject) b env ls (Daemon.boot k₀ db₀)).pc = .loop)
    (hq : (Daemon.exec (Oracle.rejecting reject) b env ls (Daemon.boot k₀ db₀)).queue = [])
    {a : Str} {rules : List Dict} {policy P : Str} (ha : '/' ∉ a)
    (hwr : a ∉ (Daemon.exec (Oracle.rejecting reject) b env ls (Daemon.boot k₀ db₀)).writing)
    (hitems : ((Daemon.exec (Oracle.rejecting reject) b env ls (Daemon.boot k₀ db₀)).db.multiread
      (targetDir a)).items = (ruleEntries rules policy).map fun kv => (targetDir a ++ kv.1, kv.2))
    (hr : ∀ r ∈ rules, StorableRule r) (hlen : rules.length ≤ 10000)
    (hP : b.prepare_rules env (b.chain_for_addr a) (rules ++ [Dict.single "action".toList policy])
      (familyOf a) = .ok P)
    (hrej : reject P = none) {inPrefix : Str → Str → Bool} {N : List Str}
    (hfull : FullHostPrefixes inPrefix (familyOf a))
    (hN : dns_addresses env.resolvConf (some (familyOf a)) = .ok N)
    (hlaw : ∀ r ∈ rules ++ [Dict.single "action".toList policy], b.LawfulRule inPrefix (familyOf a) N r)
    (pkt : Packet (familyOf a)) :
    ((Daemon.exec (Oracle.rejecting reject) b env ls (Daemon.boot k₀ db₀)).sys.kernel
        (familyOf a)).forward b inPrefix a pkt =
      some (b.verdictOf (verdict inPrefix env N (rules ++ [Dict.single "action".toList policy]) pkt)) := by
  obtain ⟨hmem, hinst⟩ := installed_of_items hacc
    (fun f => (henv f).valueChar) (dns_addresses_valueChar hns)
    hk₀ hw hc hpc hq ha hwr hitems hr hlen hP hrej
  obtain ⟨p, hp, rfl⟩ := List.mem_map.1 hmem
  rw [hinst.forward, Backend.chainRules_verdict hfull hN (hns _ N hN) hlaw (hw.hosts p hp).1
    (henv _) hP pkt, firstMatch_policy]
  rfl

/-- A new HTTPS packet from `10.137.0.5`. -/
def httpsPacket : Packet (familyOf (key "10.137.0.5")) :=
  ⟨key "tcp", key "93.184.216.34", some 443, none, by decide, by decide⟩

/-- A writer writes for `10.137.0.5` a rule set without a policy once the initial load of
    `10.137.0.6` is over, and `main` reads the events of the update. -/
def policyMissingRun : List Label :=
  [.main, .main, .main, .main] ++ Label.update (key "10.137.0.5") [(key "0000", key "action=accept")] ++
    [.main, .main, .main, .main]

/-- What the forward chain of a waiting service does with a new packet from `addr`, read off
    the store: the drop `init` ends the forward chain with when the store holds nothing under
    the directory of `addr`, and otherwise the verdict of the rules `handle_addr` leaves for
    what it holds there, that drop when none of them decides. -/
def storeVerdict (b : Backend) (env : Env) (reject : Str → Option Str) (inPrefix : Str → Str → Bool)
    (db : QubesDB) (addr : Str) (pkt : Packet (familyOf addr)) : Option Str :=
  if (db.multiread (targetDir addr)).items = [] then some (b.verdictOf (key "drop"))
  else ((expected b env reject db addr).findSome? (b.ruleVerdict inPrefix pkt)).or
    (some (b.verdictOf (key "drop")))

/-- The verdict read off the store depends only on the entries under the address's
    directory. -/
theorem storeVerdict_congr {inPrefix : Str → Str → Bool} {db db' : QubesDB} {a : Str}
    (h : db.multiread (targetDir a) = db'.multiread (targetDir a)) (pkt : Packet (familyOf a)) :
    storeVerdict b env reject inPrefix db a pkt = storeVerdict b env reject inPrefix db' a pkt := by
  rw [storeVerdict, storeVerdict, h, expected_congr h]

/-- With nothing under the address's directory, `read_rules` finds no policy. -/
theorem read_rules_of_items_nil {db : QubesDB} {a : Str} (h : (db.multiread (targetDir a)).items = []) :
    read_rules db a = .error (.ruleParseError "No 'policy' defined".toList) := by
  simp only [read_rules, h]
  rfl

/-- While `main` waits with no event queued, the forward chain judges every new packet from an
    address without `/`, with no update in progress, as the store now says. -/
theorem waiting_forward_eq_storeVerdict (hacc : AcceptsOwn b env reject)
    (henv : ∀ f, env.ResolvesOnly b.ValueChar f)
    (hns : ∀ f N, dns_addresses env.resolvConf (some f) = .ok N → ∀ n ∈ N, Str.Only b.ValueChar n)
    {k₀ : Kernel} (hk₀ : ∀ f, (k₀ f).jumps = []) {db₀ : QubesDB} {ls : List Label}
    (hw : WellFormedCalls b (Daemon.calls (Oracle.rejecting reject) b env ls (Daemon.boot k₀ db₀)))
    (hc : Daemon.WritesWatched (Oracle.rejecting reject) b env ls (Daemon.boot k₀ db₀))
    (hpc : (Daemon.exec (Oracle.rejecting reject) b env ls (Daemon.boot k₀ db₀)).pc = .loop)
    (hq : (Daemon.exec (Oracle.rejecting reject) b env ls (Daemon.boot k₀ db₀)).queue = [])
    {a : Str} (ha : '/' ∉ a)
    (hwr : a ∉ (Daemon.exec (Oracle.rejecting reject) b env ls (Daemon.boot k₀ db₀)).writing)
    (hsrc : ∀ p ∈ Daemon.calls (Oracle.rejecting reject) b env ls (Daemon.boot k₀ db₀),
      hostOf p.1 = hostOf a → p.1 = a)
    (inPrefix : Str → Str → Bool) (pkt : Packet (familyOf a)) :
    ((Daemon.exec (Oracle.rejecting reject) b env ls (Daemon.boot k₀ db₀)).sys.kernel
        (familyOf a)).forward b inPrefix a pkt =
      storeVerdict b env reject inPrefix
        (Daemon.exec (Oracle.rejecting reject) b env ls (Daemon.boot k₀ db₀)).db a pkt := by
  have hu := (List.nil_append _ ▸ (Daemon.NoLostUpdate.boot k₀ db₀).exec ls hc).upToDate hpc hq ha hwr
  have hG := good_of_run hacc henv hns hk₀ hw (by rw [hpc]; rfl)
  have hpol := policy_of_run hacc henv hns hk₀ hw (by rw [hpc]; rfl) (by rw [hpc]; nofun) (familyOf a)
  unfold storeVerdict
  by_cases hmem : a ∈ (Daemon.calls (Oracle.rejecting reject) b env ls (Daemon.boot k₀ db₀)).map Prod.fst
  · rw [(hG.installed_of_upToDate hw hu (.inl hmem)).forward, hpol]
    split_ifs with hnil
    · obtain ⟨p, hp, rfl⟩ := List.mem_map.1 hmem
      rw [expected, read_rules_of_items_nil hnil]
      exact b.fallback_forward (b.oneWord_chain (hw.words p hp).1.2) pkt
    · rfl
  · rw [if_pos (by_contra fun hnil => hmem (hu.mem hnil)),
      Table.forward_of_no_jump (hG.filter_sameHost_eq_nil (not_alias_of_not_mem hsrc hmem)) pkt, hpol]

/-- Over any two runs of `main` with one backend, resolver and tools, each from tables without
    jumps and from any store, each as in `waiting_filter_enforces_store`: whenever both wait
    in `read_watch` with no event queued, and the store holds the same entries under the
    directory of an address without `/` with no update in progress in either run, the two
    forward chains judge every new packet from that address alike, whatever moves led there:
    which rule sets were written and overwritten before, in which order, and how often the
    address was handled.  The tools refuse here by the program alone
    (`Oracle.rejecting`); a refusal that depends on the commands run before, such as one
    from a lock another program holds, may leave the drop fallback in one run only, and is
    outside this theorem. -/
theorem waiting_forward_history_independent (hacc : AcceptsOwn b env reject)
    (henv : ∀ f, env.ResolvesOnly b.ValueChar f)
    (hns : ∀ f N, dns_addresses env.resolvConf (some f) = .ok N → ∀ n ∈ N, Str.Only b.ValueChar n)
    (k₁ k₂ : Kernel) (hk₁ : ∀ f, (k₁ f).jumps = []) (hk₂ : ∀ f, (k₂ f).jumps = [])
    (db₁ db₂ : QubesDB) (ls₁ ls₂ : List Label) :
    let d₁ := Daemon.exec (Oracle.rejecting reject) b env ls₁ (Daemon.boot k₁ db₁)
    let d₂ := Daemon.exec (Oracle.rejecting reject) b env ls₂ (Daemon.boot k₂ db₂)
    WellFormedCalls b (Daemon.calls (Oracle.rejecting reject) b env ls₁ (Daemon.boot k₁ db₁)) →
    WellFormedCalls b (Daemon.calls (Oracle.rejecting reject) b env ls₂ (Daemon.boot k₂ db₂)) →
    Daemon.WritesWatched (Oracle.rejecting reject) b env ls₁ (Daemon.boot k₁ db₁) →
    Daemon.WritesWatched (Oracle.rejecting reject) b env ls₂ (Daemon.boot k₂ db₂) →
    d₁.pc = .loop → d₁.queue = [] → d₂.pc = .loop → d₂.queue = [] →
      ∀ a, '/' ∉ a → a ∉ d₁.writing → a ∉ d₂.writing →
        (∀ p ∈ Daemon.calls (Oracle.rejecting reject) b env ls₁ (Daemon.boot k₁ db₁),
          hostOf p.1 = hostOf a → p.1 = a) →
        (∀ p ∈ Daemon.calls (Oracle.rejecting reject) b env ls₂ (Daemon.boot k₂ db₂),
          hostOf p.1 = hostOf a → p.1 = a) →
        d₁.db.multiread (targetDir a) = d₂.db.multiread (targetDir a) →
        ∀ inPrefix (pkt : Packet (familyOf a)),
          (d₁.sys.kernel (familyOf a)).forward b inPrefix a pkt =
            (d₂.sys.kernel (familyOf a)).forward b inPrefix a pkt := by
  intro d₁ d₂ hw₁ hw₂ hc₁ hc₂ hpc₁ hq₁ hpc₂ hq₂ a ha hwr₁ hwr₂ hsrc₁ hsrc₂ hdb inPrefix pkt
  calc (d₁.sys.kernel (familyOf a)).forward b inPrefix a pkt
      = storeVerdict b env reject inPrefix d₁.db a pkt :=
        waiting_forward_eq_storeVerdict hacc henv hns hk₁ hw₁ hc₁ hpc₁ hq₁ ha hwr₁ hsrc₁ inPrefix pkt
    _ = storeVerdict b env reject inPrefix d₂.db a pkt := storeVerdict_congr hdb pkt
    _ = (d₂.sys.kernel (familyOf a)).forward b inPrefix a pkt :=
        (waiting_forward_eq_storeVerdict hacc henv hns hk₂ hw₂ hc₂ hpc₂ hq₂ ha hwr₂ hsrc₂ inPrefix pkt).symm

/-- The HTTPS run of the nftables worker, once from the store of `10.137.0.6` and once from
    the store giving `10.137.0.5` policy `accept`, which the initial load enforces before the
    writer's update overwrites it: both end waiting with the same entries for `10.137.0.5`, and a new
    HTTPS packet from it gets the same verdict. -/
theorem waiting_forward_history_independent_https :
    let d₁ := Daemon.exec (Oracle.rejecting fun _ => none) .nftables Daemon.noNameservers httpsRun
      (Daemon.boot Kernel.fresh Daemon.acceptStoreSix)
    let d₂ := Daemon.exec (Oracle.rejecting fun _ => none) .nftables Daemon.noNameservers httpsRun
      (Daemon.boot Kernel.fresh Daemon.acceptStore)
    WellFormedCalls .nftables (Daemon.calls (Oracle.rejecting fun _ => none) .nftables
      Daemon.noNameservers httpsRun (Daemon.boot Kernel.fresh Daemon.acceptStoreSix)) ∧
      WellFormedCalls .nftables (Daemon.calls (Oracle.rejecting fun _ => none) .nftables
        Daemon.noNameservers httpsRun (Daemon.boot Kernel.fresh Daemon.acceptStore)) ∧
      Daemon.WritesWatched (Oracle.rejecting fun _ => none) .nftables Daemon.noNameservers
        httpsRun (Daemon.boot Kernel.fresh Daemon.acceptStoreSix) ∧
      Daemon.WritesWatched (Oracle.rejecting fun _ => none) .nftables Daemon.noNameservers
        httpsRun (Daemon.boot Kernel.fresh Daemon.acceptStore) ∧
      d₁.pc = .loop ∧ d₁.queue = [] ∧ d₂.pc = .loop ∧ d₂.queue = [] ∧ '/' ∉ key "10.137.0.5" ∧
      key "10.137.0.5" ∉ d₁.writing ∧ key "10.137.0.5" ∉ d₂.writing ∧
      (∀ p ∈ Daemon.calls (Oracle.rejecting fun _ => none) .nftables Daemon.noNameservers httpsRun
        (Daemon.boot Kernel.fresh Daemon.acceptStoreSix),
          hostOf p.1 = hostOf (key "10.137.0.5") → p.1 = key "10.137.0.5") ∧
      (∀ p ∈ Daemon.calls (Oracle.rejecting fun _ => none) .nftables Daemon.noNameservers httpsRun
        (Daemon.boot Kernel.fresh Daemon.acceptStore),
          hostOf p.1 = hostOf (key "10.137.0.5") → p.1 = key "10.137.0.5") ∧
      d₁.db.multiread (targetDir (key "10.137.0.5")) = d₂.db.multiread (targetDir (key "10.137.0.5")) ∧
      (d₁.sys.kernel (familyOf (key "10.137.0.5"))).forward .nftables
          (hostPrefix (familyOf (key "10.137.0.5"))) (key "10.137.0.5") httpsPacket =
        (d₂.sys.kernel (familyOf (key "10.137.0.5"))).forward .nftables
          (hostPrefix (familyOf (key "10.137.0.5"))) (key "10.137.0.5") httpsPacket := by
  intro d₁ d₂
  have hw₁ : WellFormedCalls .nftables (Daemon.calls (Oracle.rejecting fun _ => none) .nftables
      Daemon.noNameservers httpsRun (Daemon.boot Kernel.fresh Daemon.acceptStoreSix)) := by decide
  have hw₂ : WellFormedCalls .nftables (Daemon.calls (Oracle.rejecting fun _ => none) .nftables
      Daemon.noNameservers httpsRun (Daemon.boot Kernel.fresh Daemon.acceptStore)) := by decide
  have hc₁ : Daemon.WritesWatched (Oracle.rejecting fun _ => none) .nftables Daemon.noNameservers
      httpsRun (Daemon.boot Kernel.fresh Daemon.acceptStoreSix) := by decide
  have hc₂ : Daemon.WritesWatched (Oracle.rejecting fun _ => none) .nftables Daemon.noNameservers
      httpsRun (Daemon.boot Kernel.fresh Daemon.acceptStore) := by decide
  have hpc₁ : d₁.pc = .loop := by decide
  have hq₁ : d₁.queue = [] := by decide
  have hpc₂ : d₂.pc = .loop := by decide
  have hq₂ : d₂.queue = [] := by decide
  have ha : '/' ∉ key "10.137.0.5" := by decide
  have hwr₁ : key "10.137.0.5" ∉ d₁.writing := by decide
  have hwr₂ : key "10.137.0.5" ∉ d₂.writing := by decide
  have hdb : d₁.db.multiread (targetDir (key "10.137.0.5")) =
      d₂.db.multiread (targetDir (key "10.137.0.5")) := by decide
  have hsrc₁ : ∀ p ∈ Daemon.calls (Oracle.rejecting fun _ => none) .nftables Daemon.noNameservers
      httpsRun (Daemon.boot Kernel.fresh Daemon.acceptStoreSix),
        hostOf p.1 = hostOf (key "10.137.0.5") → p.1 = key "10.137.0.5" := by decide
  have hsrc₂ : ∀ p ∈ Daemon.calls (Oracle.rejecting fun _ => none) .nftables Daemon.noNameservers
      httpsRun (Daemon.boot Kernel.fresh Daemon.acceptStore),
        hostOf p.1 = hostOf (key "10.137.0.5") → p.1 = key "10.137.0.5" := by decide
  refine ⟨hw₁, hw₂, hc₁, hc₂, hpc₁, hq₁, hpc₂, hq₂, ha, hwr₁, hwr₂, hsrc₁, hsrc₂, hdb,
    waiting_forward_history_independent ⟨rfl, fun _ _ _ => rfl, fun _ _ _ _ => rfl⟩
    (Daemon.noNameservers_resolvesOnly _) Daemon.noNameservers_dns Kernel.fresh Kernel.fresh
    (fun _ => rfl) (fun _ => rfl) _ _ httpsRun httpsRun hw₁ hw₂ hc₁ hc₂ hpc₁ hq₁ hpc₂ hq₂ _ ha
    hwr₁ hwr₂ hsrc₁ hsrc₂ hdb _ httpsPacket⟩

end Waiting

end QubesFirewall
