import QubesFirewall.Translate

/-! # The nftables backend: rule sets as `nft -f` input

    `NftablesWorker.prepare_rules` turns a rule list into one `nft` transaction: a flush
    of the address's chain, then a `table <fam> qubes-firewall` block whose chain block
    lists one statement per rule, or two when the rule has ports and no protocol (one for
    `tcp`, one for `udp`).  A statement is the selectors in a fixed order (protocol,
    destination, nameserver set, ICMP type), the port clause and the verdict.  A range
    `N-N` collapses to `N`; `specialtarget=dns` keeps its ports only if they are `53` and
    adds the nameservers as a second destination clause.
-/

namespace QubesFirewall.Nftables

/-! ## Section 1: Chain names -/

/-- `NftablesWorker.chain_for_addr`: `qbs-` and the address, dots and colons made dashes. -/
def chain_for_addr (addr : Str) : Str :=
  "qbs-".toList ++ Str.replace (Str.replace addr '.' '-') ':' '-'

/-! ## Section 2: The clauses of a statement -/

/-- `{ a, b }`, an nft set. -/
def setLiteral (xs : List Str) : Str := "\x7b ".toList ++ Str.join ", ".toList xs ++ " \x7d".toList

/-- ` ip protocol <p>` or ` ip6 nexthdr <p>`, `icmp` read as `icmpv6` for IPv6. -/
def protoClause (rule : Dict) (family : Family) : Str :=
  match rule.get (key "proto"), family with
  | none, _ => []
  | some p, .four => " ip protocol ".toList ++ p
  | some p, .six => " ip6 nexthdr ".toList ++ if p = key "icmp" then key "icmpv6" else p

/-- The destination clause: `dst4`, else `dst6`, else the resolved `dsthost` as a set. -/
def daddrClause (env : Env) (rule : Dict) (family : Family) : Except PyExc Str :=
  match rule.get (key "dst4"), rule.get (key "dst6"), rule.get (key "dsthost") with
  | some d, _, _ => .ok (" ip daddr ".toList ++ d)
  | none, some d, _ => .ok (" ip6 daddr ".toList ++ d)
  | none, none, some h =>
    (fun addrs => ' ' :: ip_match family ++ " daddr ".toList ++
      setLiteral (addrs.map (· ++ fullmask family)).dedup) <$> resolveHost env h family
  | none, none, none => .ok []

/-- `dstports`, collapsed to its first part when all its `-`-parts are equal. -/
def dstportsOf (rule : Dict) : Option Str :=
  (rule.get (key "dstports")).map fun d =>
    -- `split` never returns an empty list, so `[0]` cannot fail
    if (Str.split d '-').dedup.length = 1 then (Str.split d '-').headD [] else d

/-- ` icmp type <t>` or ` icmpv6 type <t>`. -/
def icmpClause (rule : Dict) (family : Family) : Str :=
  match rule.get (key "icmptype"), family with
  | none, _ => []
  | some t, .four => " icmp type ".toList ++ t
  | some t, .six => " icmpv6 type ".toList ++ t

/-- The statements of a rule from its selector text: one per port protocol. -/
def emit (rule : Dict) (nft_rule : Str) (dstports : Option Str) : Except PyExc (List Str) :=
  match dstports with
  | some d =>
    if rule.contains (key "proto") then do
      let p ← rule.getItem (key "proto")
      let a ← rule.getItem (key "action")
      pure [nft_rule ++ ' ' :: p ++ " dport ".toList ++ d ++ ' ' :: a]
    else do
      let a ← rule.getItem (key "action")
      pure [nft_rule ++ " tcp dport ".toList ++ d ++ ' ' :: a,
        nft_rule ++ " udp dport ".toList ++ d ++ ' ' :: a]
  | none => do
    let a ← rule.getItem (key "action")
    pure [nft_rule ++ ' ' :: a]

/-- The statements of one rule, or the exception its translation raises. -/
def ruleStatements (env : Env) (dns : List Str) (family : Family) (rule : Dict) :
    Except PyExc (List Str) := do
  checkRule rule family
  let daddr ← daddrClause env rule family
  let nft_rule := protoClause rule family ++ daddr
  let dstports := dstportsOf rule
  if isDnsRule rule then
    if dstports ∉ [some (key "53"), none] then pure []
    else if dns = [] then pure []
    else emit rule (nft_rule ++ ' ' :: ip_match family ++ " daddr ".toList ++ setLiteral dns ++
      icmpClause rule family) (some (key "53"))
  else emit rule (nft_rule ++ icmpClause rule family) dstports

/-! ## Section 3: The program -/

/-- The transaction that flushes `chain` and fills it with `rules`. -/
def chainProgram (family : Family) (chain : Str) (rules : List Str) : Str :=
  "flush chain ".toList ++ ip_match family ++ " qubes-firewall ".toList ++ chain ++
    "\ntable ".toList ++ ip_match family ++ " qubes-firewall \x7b\n  chain ".toList ++ chain ++
    " \x7b\n   ".toList ++ Str.join "\n   ".toList rules ++ "\n  \x7d\n\x7d\n".toList

/-- `NftablesWorker.prepare_rules`: the `nft` input for `rules` in `chain`. -/
def prepare_rules (env : Env) (chain : Str) (rules : List Dict) (family : Family) :
    Except PyExc Str := do
  let dns ← dnsList env family
  let nft_rules ← rules.mapM (ruleStatements env dns family)
  pure (chainProgram family chain nft_rules.flatten)

/-! ## Section 4: What a translation that raises nothing is made of -/

/-- The selector text of a rule kept by the `specialtarget` step. -/
def selectorText (dns : List Str) (family : Family) (rule : Dict) (daddr : Str) : Str :=
  if isDnsRule rule then
    protoClause rule family ++ daddr ++ ' ' :: ip_match family ++ " daddr ".toList ++
      setLiteral dns ++ icmpClause rule family
  else protoClause rule family ++ daddr ++ icmpClause rule family

/-- The ports a rule kept by the `specialtarget` step is emitted with. -/
def effectivePorts (rule : Dict) : Option Str :=
  if isDnsRule rule then some (key "53") else dstportsOf rule

/-- Whether the `specialtarget` step keeps the rule. -/
def kept (dns : List Str) (rule : Dict) : Prop :=
  isDnsRule rule → dstportsOf rule ∈ [some (key "53"), none] ∧ dns ≠ []

instance {dns : List Str} {rule : Dict} : Decidable (kept dns rule) :=
  inferInstanceAs (Decidable (_ → _))

theorem ruleStatements_ok {env : Env} {dns : List Str} {family : Family} {rule : Dict}
    {ss : List Str} (h : ruleStatements env dns family rule = .ok ss) :
    ∃ daddr, checkRule rule family = .ok () ∧ daddrClause env rule family = .ok daddr ∧
      if kept dns rule then
        emit rule (selectorText dns family rule daddr) (effectivePorts rule) = .ok ss
      else ss = [] := by
  obtain ⟨u, hc, h⟩ := bind_eq_ok.1 h
  obtain ⟨daddr, hd, h⟩ := bind_eq_ok.1 h
  refine ⟨daddr, hc, hd, ?_⟩
  unfold kept selectorText effectivePorts
  by_cases hdns : isDnsRule rule
  · by_cases hp : dstportsOf rule ∈ [some (key "53"), none]
    · by_cases hn : dns = []
      · simp only [hdns, hp, hn, if_true, if_false, not_true_eq_false, ne_eq, and_false,
          true_implies, pure_eq_ok] at h ⊢
        exact h.symm
      · simp only [hdns, hp, hn, if_true, if_false, not_true_eq_false, not_false_eq_true,
          ne_eq, and_true, true_implies] at h ⊢
        exact h
    · simp only [hdns, hp, if_true, if_false, not_false_eq_true, false_and,
        true_implies, pure_eq_ok] at h ⊢
      exact h.symm
  · simp only [hdns, if_false, Bool.false_eq_true, false_implies, if_true] at h ⊢
    exact h

/-- The statements `emit` makes once it has read the verdict `a`. -/
def emitted (rule : Dict) (nft_rule : Str) (dstports : Option Str) (a : Str) : List Str :=
  match dstports, rule.get (key "proto") with
  | some d, some p => [nft_rule ++ ' ' :: p ++ " dport ".toList ++ d ++ ' ' :: a]
  | some d, none =>
    [nft_rule ++ " tcp dport ".toList ++ d ++ ' ' :: a,
      nft_rule ++ " udp dport ".toList ++ d ++ ' ' :: a]
  | none, _ => [nft_rule ++ ' ' :: a]

theorem emit_ok {rule : Dict} {nft_rule : Str} {dstports : Option Str} {ss : List Str}
    (h : emit rule nft_rule dstports = .ok ss) :
    ∃ a, rule.get (key "action") = some a ∧ ss = emitted rule nft_rule dstports a := by
  unfold emit at h
  cases dstports with
  | none =>
    obtain ⟨a, ha, h⟩ := bind_eq_ok.1 h
    exact ⟨a, Dict.get_of_getItem ha, by rw [← pure_eq_ok.1 h]; rfl⟩
  | some d =>
    dsimp only at h
    by_cases hp : rule.contains (key "proto")
    · rw [if_pos hp] at h
      obtain ⟨p, hpv, h⟩ := bind_eq_ok.1 h
      obtain ⟨a, ha, h⟩ := bind_eq_ok.1 h
      refine ⟨a, Dict.get_of_getItem ha, ?_⟩
      rw [← pure_eq_ok.1 h]
      unfold emitted
      rw [Dict.get_of_getItem hpv]
    · rw [if_neg hp] at h
      obtain ⟨a, ha, h⟩ := bind_eq_ok.1 h
      refine ⟨a, Dict.get_of_getItem ha, ?_⟩
      rw [Dict.contains_eq_isSome, Option.not_isSome_iff_eq_none] at hp
      rw [← pure_eq_ok.1 h]
      unfold emitted
      rw [hp]

theorem prepare_rules_ok {env : Env} {chain : Str} {rules : List Dict} {family : Family}
    {P : Str} (h : prepare_rules env chain rules family = .ok P) :
    ∃ dns body, dnsList env family = .ok dns ∧
      List.Forall₂ (fun r ss => ruleStatements env dns family r = .ok ss) rules body ∧
      P = chainProgram family chain body.flatten := by
  obtain ⟨dns, hd, h⟩ := bind_eq_ok.1 h
  obtain ⟨body, hb, h⟩ := bind_eq_ok.1 h
  exact ⟨dns, body, hd, mapM_eq_ok.1 hb, (pure_eq_ok.1 h).symm⟩

/-! ## Section 5: Statements that stay statements -/

/-- The brace depth after reading a text from depth `d`; `none` once a brace closes that
    was not opened. -/
def braceDepth : Nat → Str → Option Nat
  | d, [] => some d
  | d, c :: s =>
    if c = '\x7b' then braceDepth (d + 1) s
    else if c = '\x7d' then (match d with
      | 0 => none
      | d + 1 => braceDepth d s)
    else braceDepth d s

theorem braceDepth_append : ∀ (d : Nat) (s t : Str),
    braceDepth d (s ++ t) = (braceDepth d s).bind (braceDepth · t)
  | d, [], t => rfl
  | d, c :: s, t => by
    simp only [List.cons_append, braceDepth]
    split_ifs
    · exact braceDepth_append _ s t
    · cases d
      · rfl
      · exact braceDepth_append _ s t
    · exact braceDepth_append _ s t

/-- The characters that end a statement or start a comment or a string in `nft`. -/
def breakers : Str := "\n;#\"".toList

/-- A text that is no more than part of one statement: none of the `breakers`, and every
    brace it opens closed again inside it. -/
def Plain (s : Str) : Prop := Str.Only (· ∉ breakers) s ∧ ∀ d, braceDepth d s = some d

/-- A character that may stand in an option value of a statement. -/
def ValueChar (c : Char) : Prop := c ∉ breakers ∧ c ≠ '\x7b' ∧ c ≠ '\x7d'

instance : DecidablePred ValueChar := fun _ => inferInstanceAs (Decidable (_ ∧ _))

theorem Plain.append {s t : Str} (hs : Plain s) (ht : Plain t) : Plain (s ++ t) :=
  ⟨Str.only_append.2 ⟨hs.1, ht.1⟩, fun d => by rw [braceDepth_append, hs.2, Option.some_bind, ht.2]⟩

theorem plain_of_valueChars {s : Str} (h : Str.Only ValueChar s) : Plain s := by
  refine ⟨h.imp fun _ hc => hc.1, fun d => ?_⟩
  induction s generalizing d with
  | nil => rfl
  | cons c s ih =>
    have hc := h c (List.mem_cons_self _ _)
    simp only [braceDepth, if_neg hc.2.1, if_neg hc.2.2]
    exact ih (fun c' hc' => h c' (List.mem_cons_of_mem _ hc')) d

theorem plain_setLiteral {xs : List Str} (h : ∀ x ∈ xs, Str.Only ValueChar x) :
    Plain (setLiteral xs) := by
  have hj : Plain (Str.join ", ".toList xs) :=
    plain_of_valueChars (Str.only_join (by decide) h)
  refine ⟨Str.only_append.2 ⟨Str.only_append.2 ⟨by decide, hj.1⟩, by decide⟩, fun d => ?_⟩
  rw [setLiteral, braceDepth_append, braceDepth_append,
    show braceDepth d "\x7b ".toList = some (d + 1) from rfl, Option.some_bind, hj.2 (d + 1)]
  rfl

section Plain

variable {env : Env} {dns : List Str} {family : Family} {rule : Dict}

theorem plain_const (s : Str) (h : s ⊆ " iprotoclnexhd6vmayu53/128".toList) : Plain s :=
  have hall : ∀ c ∈ " iprotoclnexhd6vmayu53/128".toList, ValueChar c := by decide
  plain_of_valueChars fun c hc => hall c (h hc)

theorem Plain.space_cons {s : Str} (h : Plain s) : Plain (' ' :: s) :=
  (plain_const [' '] (by decide)).append h

theorem plain_value {s : Str} (h : Str.Only ValueChar s) : Plain s := plain_of_valueChars h

theorem protoClause_plain (hrule : rule.ValuesOnly ValueChar) :
    Plain (protoClause rule family) := by
  unfold protoClause
  split
  · exact plain_const _ (List.nil_subset _)
  · next p hp => exact (plain_const _ (by decide)).append (plain_value (hrule.get hp))
  · next p hp =>
    refine (plain_const _ (by decide)).append ?_
    split
    · exact plain_const _ (by decide)
    · exact plain_value (hrule.get hp)

theorem icmpClause_plain (hrule : rule.ValuesOnly ValueChar) :
    Plain (icmpClause rule family) := by
  unfold icmpClause
  split
  · exact plain_const _ (List.nil_subset _)
  · next t ht => exact (plain_const _ (by decide)).append (plain_value (hrule.get ht))
  · next t ht => exact (plain_const _ (by decide)).append (plain_value (hrule.get ht))

theorem ipMatch_plain : Plain (' ' :: ip_match family) := by
  cases family <;> exact plain_const _ (by decide)

theorem daddrClause_plain (hrule : rule.ValuesOnly ValueChar)
    (henv : env.ResolvesOnly ValueChar family) {daddr : Str}
    (h : daddrClause env rule family = .ok daddr) : Plain daddr := by
  unfold daddrClause at h
  split at h
  · next d hd => cases h; exact (plain_const _ (by decide)).append (plain_value (hrule.get hd))
  · next d hd => cases h; exact (plain_const _ (by decide)).append (plain_value (hrule.get hd))
  · obtain ⟨addrs, hr, rfl⟩ := map_eq_ok.1 h
    refine (ipMatch_plain.append (plain_const " daddr ".toList (by decide))).append
      (plain_setLiteral fun x hx => ?_)
    obtain ⟨a, ha, rfl⟩ := List.mem_map.1 (List.mem_dedup.1 hx)
    exact Str.only_append.2 ⟨mem_resolveHost henv hr a ha, by cases family <;> decide⟩
  · cases h; exact plain_const _ (List.nil_subset _)

theorem dstportsOf_only (hrule : rule.ValuesOnly ValueChar) :
    ∀ d, dstportsOf rule = some d → Str.Only ValueChar d := by
  intro d hd
  obtain ⟨v, hv, rfl⟩ := Option.map_eq_some'.1 hd
  split
  · obtain ⟨x, xs, hx⟩ := List.exists_cons_of_ne_nil (Str.split_ne_nil v '-')
    rw [hx, List.headD_cons]
    exact (hrule.get hv).mono (Str.subset_of_mem_split (hx ▸ List.mem_cons_self x xs))
  · exact hrule.get hv

/-- With plain values, resolver addresses and nameservers, every statement of a rule that
    raises nothing is one plain statement. -/
theorem ruleStatements_plain (hrule : rule.ValuesOnly ValueChar)
    (henv : env.ResolvesOnly ValueChar family) (hdns : ∀ a ∈ dns, Str.Only ValueChar a)
    {ss : List Str} (h : ruleStatements env dns family rule = .ok ss) : ∀ st ∈ ss, Plain st := by
  obtain ⟨daddr, -, hd, hk⟩ := ruleStatements_ok h
  split at hk
  · obtain ⟨a, ha, rfl⟩ := emit_ok hk
    have hsel : Plain (selectorText dns family rule daddr) := by
      unfold selectorText
      split
      · simpa only [List.append_assoc, List.cons_append] using
          (protoClause_plain hrule : Plain (protoClause rule family)).append ((daddrClause_plain hrule henv hd).append
            (ipMatch_plain.append ((plain_const " daddr ".toList (by decide)).append
              ((plain_setLiteral hdns).append (icmpClause_plain hrule)))))
      · simpa only [List.append_assoc] using
          (protoClause_plain hrule : Plain (protoClause rule family)).append
            ((daddrClause_plain hrule henv hd).append (icmpClause_plain hrule))
    have hports : ∀ d, effectivePorts rule = some d → Plain d := by
      intro d hd
      unfold effectivePorts at hd
      split at hd
      · cases hd; exact plain_const _ (by decide)
      · exact plain_value (dstportsOf_only hrule d hd)
    have hav := plain_value (hrule.get ha)
    intro st hst
    unfold emitted at hst
    split at hst
    · next d p hd hp =>
      rw [List.mem_singleton.1 hst]
      exact (((hsel.append (plain_value (hrule.get hp)).space_cons).append
        (plain_const " dport ".toList (by decide))).append (hports d hd)).append
          hav.space_cons
    · next d hd _ =>
      rcases List.mem_pair.1 hst with rfl | rfl
      · exact (((hsel.append (plain_const " tcp dport ".toList (by decide))).append
          (hports d hd)).append hav.space_cons)
      · exact (((hsel.append (plain_const " udp dport ".toList (by decide))).append
          (hports d hd)).append hav.space_cons)
    · rw [List.mem_singleton.1 hst]
      exact hsel.append hav.space_cons
  · subst hk; exact fun _ h => absurd h (List.not_mem_nil _)

end Plain

end QubesFirewall.Nftables
