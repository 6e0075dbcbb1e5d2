import QubesFirewall.Translate

/-! # The legacy backend: rule sets as `iptables-restore` input

    `IptablesWorker.prepare_rules` turns a rule list into an `iptables-restore` program:
    `*filter`, one `-A <chain> ...` line for every pair of a protocol and a destination of
    each rule, and `COMMIT`.  A `dsthost` becomes the sorted set of its addresses with the
    full-host mask; `dstports` has its `-` replaced by `:`; `specialtarget=dns` narrows the
    protocols to `tcp`/`udp`, the destinations to the nameservers and the ports to
    `53:53`, or skips the rule.  The chain of a source address keeps the last twenty
    characters of the address.
-/

namespace QubesFirewall.Iptables

/-! ## Section 1: Chain names -/

/-- `IptablesWorker.chain_for_addr`: `qbs-` and the last 20 characters of the address,
    dots and colons made dashes. -/
def chain_for_addr (addr : Str) : Str :=
  "qbs-".toList ++ Str.lastN (Str.replace (Str.replace addr '.' '-') ':' '-') 20

/-! ## Section 2: The selectors of a rule -/

/-- What a rule selects once parsed: protocols, destinations and ports, each absent
    (`None`) or given. -/
structure Selectors where
  protos : Option (List Str)
  dsthosts : Option (List Str)
  dstports : Option Str
  deriving DecidableEq

/-- `protos`: the rule's protocol, `icmp` read as `icmpv6` for IPv6. -/
def protosOf (rule : Dict) (family : Family) : Option (List Str) :=
  (rule.get (key "proto")).map fun p =>
    if p = key "icmp" ∧ family = .six then [key "icmpv6"] else [p]

/-- `dsthosts`: `dst4`, else `dst6`, else the resolved `dsthost` as a set. -/
def dsthostsOf (env : Env) (rule : Dict) (family : Family) : Except PyExc (Option (List Str)) :=
  match rule.get (key "dst4"), rule.get (key "dst6"), rule.get (key "dsthost") with
  | some d, _, _ => .ok (some [d])
  | none, some d, _ => .ok (some [d])
  | none, none, some h =>
    (fun addrs => some (addrs.map (· ++ fullmask family)).dedup) <$> resolveHost env h family
  | none, none, none => .ok none

/-- `dstports`, with `-` replaced by `:`. -/
def dstportsOf (rule : Dict) : Option Str :=
  (rule.get (key "dstports")).map fun d => Str.replace d '-' ':'

/-- `{'tcp', 'udp'}.intersection(protos)`, both when `protos` is `None`. -/
def dnsProtos : Option (List Str) → List Str
  | some ps => [key "tcp", key "udp"].filter (· ∈ ps)
  | none => [key "tcp", key "udp"]

/-- `set(dns).intersection(dsthosts)`, all of `dns` when `dsthosts` is `None`. -/
def dnsHosts (dns : List Str) : Option (List Str) → List Str
  | some ds => dns.dedup.filter (· ∈ ds)
  | none => dns

theorem mem_dnsProtos {o : Option (List Str)} {x : Str} (h : x ∈ dnsProtos o) :
    x ∈ [key "tcp", key "udp"] := by
  cases o with
  | none => exact h
  | some ps => exact List.mem_of_mem_filter (p := fun x => decide (x ∈ ps)) h

theorem mem_dnsHosts {dns : List Str} {o : Option (List Str)} {x : Str} (h : x ∈ dnsHosts dns o) :
    x ∈ dns := by
  cases o with
  | none => exact h
  | some ds => exact List.mem_dedup.1 (List.mem_of_mem_filter (p := fun x => decide (x ∈ ds)) h)

/-- The `specialtarget=dns` step over the selectors; `none` is the loop's `continue`. -/
def dnsStep (dns : List Str) (s : Selectors) : Option Selectors :=
  if s.dstports ∉ [some (key "53:53"), none] then none
  else if dns = [] then none
  else some ⟨some (dnsProtos s.protos), some (dnsHosts dns s.dsthosts), some (key "53:53")⟩

/-- The selectors a rule is emitted with, after the `specialtarget` step. -/
def effectiveSelectors (dns : List Str) (family : Family) (rule : Dict)
    (dsthosts : Option (List Str)) : Option Selectors :=
  if isDnsRule rule then dnsStep dns ⟨protosOf rule family, dsthosts, dstportsOf rule⟩
  else some ⟨protosOf rule family, dsthosts, dstportsOf rule⟩

/-- `sorted(xs)` of a given selector, `[None]` for an absent one. -/
def sortedOrNone : Option (List Str) → List (Option Str)
  | none => [none]
  | some xs => (Str.sorted xs).map some

/-! ## Section 3: The program -/

/-- One optional part of a line, ` <flag> <value>`. -/
def opt (flag : String) : Option Str → Str
  | some v => ' ' :: flag.toList ++ ' ' :: v
  | none => []

/-- One line `-A <chain> [-d ..] [-p ..] [--dport ..] [--icmp-type ..] -j <ACTION>`. -/
def iptLine (chain : Str) (dsthost proto dstports icmptype : Option Str) (action : Str) : Str :=
  "-A ".toList ++ chain ++ opt "-d" dsthost ++ opt "-p" proto ++ opt "--dport" dstports ++
    opt "--icmp-type" icmptype ++ " -j ".toList ++ Str.upper action ++ ['\n']

/-- The pairs the two nested loops run over, protocols outside. -/
def loopPairs (s : Selectors) : List (Option Str × Option Str) :=
  (sortedOrNone s.protos).flatMap fun proto => (sortedOrNone s.dsthosts).map fun d => (proto, d)

/-- The lines of one rule, or the exception its translation raises. -/
def ruleLines (env : Env) (dns : List Str) (chain : Str) (family : Family) (rule : Dict) :
    Except PyExc Str := do
  checkRule rule family
  let dsthosts ← dsthostsOf env rule family
  match effectiveSelectors dns family rule dsthosts with
  | none => pure []
  | some sel =>
    let lines ← (loopPairs sel).mapM fun pd => do
      let action ← rule.getItem (key "action")
      pure (iptLine chain pd.2 pd.1 sel.dstports (rule.get (key "icmptype")) action)
    pure lines.flatten

/-- `IptablesWorker.prepare_rules`: the `iptables-restore` input for `rules` in `chain`. -/
def prepare_rules (env : Env) (chain : Str) (rules : List Dict) (family : Family) :
    Except PyExc Str := do
  let dns ← dnsList env family
  let body ← rules.mapM (ruleLines env dns chain family)
  pure ("*filter\n".toList ++ body.flatten ++ "COMMIT\n".toList)

/-! ## Section 4: What a translation that raises nothing is made of -/

/-- The lines of a rule with its selectors and its action. -/
def linesOf (chain : Str) (rule : Dict) (sel : Selectors) (action : Str) : List Str :=
  (loopPairs sel).map fun pd => iptLine chain pd.2 pd.1 sel.dstports (rule.get (key "icmptype")) action

theorem ruleLines_ok {env : Env} {dns : List Str} {chain : Str} {family : Family} {rule : Dict}
    {s : Str} (h : ruleLines env dns chain family rule = .ok s) :
    ∃ ds, checkRule rule family = .ok () ∧ dsthostsOf env rule family = .ok ds ∧
      match effectiveSelectors dns family rule ds with
      | none => s = []
      | some sel => (loopPairs sel = [] ∧ s = []) ∨
          ∃ a, rule.getItem (key "action") = .ok a ∧ s = (linesOf chain rule sel a).flatten := by
  obtain ⟨u, hc, h⟩ := bind_eq_ok.1 h
  obtain ⟨ds, hd, h⟩ := bind_eq_ok.1 h
  refine ⟨ds, hc, hd, ?_⟩
  revert h
  cases effectiveSelectors dns family rule ds with
  | none => exact fun h => (pure_eq_ok.1 h).symm
  | some sel =>
    intro h
    obtain ⟨lines, hl, h⟩ := bind_eq_ok.1 h
    rw [← pure_eq_ok.1 h]
    rcases mapM_read_eq_ok hl with ⟨hp, rfl⟩ | ⟨a, ha, rfl⟩
    · exact .inl ⟨hp, rfl⟩
    · exact .inr ⟨a, ha, rfl⟩

theorem prepare_rules_ok {env : Env} {chain : Str} {rules : List Dict} {family : Family}
    {P : Str} (h : prepare_rules env chain rules family = .ok P) :
    ∃ dns body, dnsList env family = .ok dns ∧
      List.Forall₂ (fun r s => ruleLines env dns chain family r = .ok s) rules body ∧
      P = "*filter\n".toList ++ body.flatten ++ "COMMIT\n".toList := by
  obtain ⟨dns, hd, h⟩ := bind_eq_ok.1 h
  obtain ⟨body, hb, h⟩ := bind_eq_ok.1 h
  exact ⟨dns, body, hd, mapM_eq_ok.1 hb, (pure_eq_ok.1 h).symm⟩

/-- The lines of a restore program: `*filter`, the lines of the body, `COMMIT`, and the
    empty text after the last newline. -/
theorem split_restore_input {L : List Str} (h : ∀ l ∈ L, '\n' ∉ l) :
    Str.split ("*filter\n".toList ++ (L.map (· ++ ['\n'])).flatten ++ "COMMIT\n".toList) '\n' =
      key "*filter" :: (L ++ [key "COMMIT", []]) := by
  rw [show "*filter\n".toList = key "*filter" ++ ['\n'] from rfl, List.append_assoc,
    List.append_assoc, List.singleton_append, Str.split_append_sep (by decide), Str.split_lines h]
  rfl

/-! ## Section 5: The characters of the selectors -/

/-- Every string of the selectors satisfies `good`. -/
def Selectors.Only (good : Char → Prop) (s : Selectors) : Prop :=
  (∀ ps, s.protos = some ps → ∀ x ∈ ps, Str.Only good x) ∧
    (∀ ds, s.dsthosts = some ds → ∀ x ∈ ds, Str.Only good x) ∧
    (∀ d, s.dstports = some d → Str.Only good d)

/-- The characters `prepare_rules` itself writes into selectors. -/
def selectorChars : Str := "icmpv6tcpud53:/128".toList

section Only

variable {good : Char → Prop} {env : Env} {family : Family} {rule : Dict}

theorem fullmask_only (hgood : Str.Only good selectorChars) : Str.Only good (fullmask family) := by
  cases family <;> exact hgood.mono (by decide)

theorem protosOf_only (hgood : Str.Only good selectorChars) (hrule : rule.ValuesOnly good) :
    ∀ ps, protosOf rule family = some ps → ∀ x ∈ ps, Str.Only good x := by
  intro ps hps x hx
  obtain ⟨p, hp, rfl⟩ := Option.map_eq_some'.1 hps
  split at hx <;> rw [List.mem_singleton] at hx <;> subst hx
  · exact hgood.mono (by decide)
  · exact hrule.get hp

theorem dsthostsOf_only (hgood : Str.Only good selectorChars) (hrule : rule.ValuesOnly good)
    (henv : env.ResolvesOnly good family) {ds : Option (List Str)}
    (h : dsthostsOf env rule family = .ok ds) : ∀ xs, ds = some xs → ∀ x ∈ xs, Str.Only good x := by
  intro xs hxs x hx
  subst hxs
  unfold dsthostsOf at h
  split at h
  · next d hd => cases h; rw [List.mem_singleton.1 hx]; exact hrule.get hd
  · next d hd => cases h; rw [List.mem_singleton.1 hx]; exact hrule.get hd
  · next host _ _ _ =>
    obtain ⟨addrs, hr, he⟩ := map_eq_ok.1 h
    cases he
    obtain ⟨a, ha, rfl⟩ := List.mem_map.1 (List.mem_dedup.1 hx)
    exact Str.only_append.2 ⟨mem_resolveHost henv hr a ha, fullmask_only hgood⟩
  · cases h

theorem dstportsOf_only (hgood : Str.Only good selectorChars) (hrule : rule.ValuesOnly good) :
    ∀ d, dstportsOf rule = some d → Str.Only good d := by
  intro d hd
  obtain ⟨v, hv, rfl⟩ := Option.map_eq_some'.1 hd
  exact Str.only_replace (hrule.get hv) (hgood _ (by decide))

theorem dnsStep_only (hgood : Str.Only good selectorChars) {dns : List Str}
    (hdns : ∀ a ∈ dns, Str.Only good a) {s s' : Selectors} (h : dnsStep dns s = some s') :
    s'.Only good := by
  unfold dnsStep at h
  split_ifs at h
  cases h
  refine ⟨fun ps hps x hx => ?_, fun ds hds x hx => ?_, fun d hd => ?_⟩
  · cases hps
    rcases List.mem_pair.1 (mem_dnsProtos hx) with rfl | rfl <;> exact hgood.mono (by decide)
  · cases hds
    exact hdns x (mem_dnsHosts hx)
  · cases hd
    exact hgood.mono (by decide)

/-- With the rule's values, the resolver's addresses and the nameservers made of `good`
    characters, so is every selector a rule is emitted with. -/
theorem effectiveSelectors_only (hgood : Str.Only good selectorChars)
    (hrule : rule.ValuesOnly good) (henv : env.ResolvesOnly good family) {dns : List Str}
    (hdns : ∀ a ∈ dns, Str.Only good a) {ds : Option (List Str)} {sel : Selectors}
    (hds : dsthostsOf env rule family = .ok ds)
    (h : effectiveSelectors dns family rule ds = some sel) : sel.Only good := by
  have hs : Selectors.Only good ⟨protosOf rule family, ds, dstportsOf rule⟩ :=
    ⟨protosOf_only hgood hrule, dsthostsOf_only hgood hrule henv hds,
      dstportsOf_only hgood hrule⟩
  unfold effectiveSelectors at h
  split at h
  · exact dnsStep_only hgood hdns h
  · cases h; exact hs

end Only

/-! ## Section 6: A line as its tokens -/

/-- `[flag, value]` for a given option, nothing for an absent one. -/
def optTokens (flag : String) : Option Str → List Str
  | some v => [flag.toList, v]
  | none => []

/-- The space-separated tokens of a line. -/
def lineTokens (chain : Str) (dsthost proto dstports icmptype : Option Str) (action : Str) :
    List Str :=
  key "-A" :: chain :: (optTokens "-d" dsthost ++ optTokens "-p" proto ++
    optTokens "--dport" dstports ++ optTokens "--icmp-type" icmptype ++
    [key "-j", Str.upper action])

theorem opt_eq_flatten (flag : String) (o : Option Str) :
    opt flag o = ((optTokens flag o).map (' ' :: ·)).flatten := by
  cases o <;> simp [opt, optTokens]

/-- A line is its tokens joined by spaces, then a newline. -/
theorem iptLine_eq_join (chain : Str) (dsthost proto dstports icmptype : Option Str)
    (action : Str) :
    iptLine chain dsthost proto dstports icmptype action =
      Str.join [' '] (lineTokens chain dsthost proto dstports icmptype action) ++ ['\n'] := by
  rw [lineTokens, Str.join_cons]
  simp [iptLine, opt_eq_flatten, key]

theorem mem_loopPairs {sel : Selectors} {pd : Option Str × Option Str}
    (h : pd ∈ loopPairs sel) :
    (∀ x, pd.1 = some x → ∃ ps, sel.protos = some ps ∧ x ∈ ps) ∧
      (∀ x, pd.2 = some x → ∃ ds, sel.dsthosts = some ds ∧ x ∈ ds) := by
  obtain ⟨p, hp, hpd⟩ := List.mem_flatMap.1 h
  obtain ⟨d, hd, rfl⟩ := List.mem_map.1 hpd
  have key : ∀ {o : Option (List Str)} {y : Option Str} {x : Str}, y ∈ sortedOrNone o → y = some x →
      ∃ xs, o = some xs ∧ x ∈ xs := by
    intro o y x hy hyx
    cases o with
    | none => cases List.mem_singleton.1 hy; cases hyx
    | some xs =>
      obtain ⟨z, hz, rfl⟩ := List.mem_map.1 hy
      cases hyx
      exact ⟨xs, rfl, Str.mem_sorted.1 hz⟩
  exact ⟨fun x hx => key hp hx, fun x hx => key hd hx⟩

/-- The characters of the flags of a line. -/
def flagChars : Str := "-Adportcimyej".toList

theorem optTokens_only {good : Char → Prop} {flag : String} {o : Option Str}
    (hflag : Str.Only good flag.toList) (ho : ∀ x, o = some x → Str.Only good x) :
    ∀ t ∈ optTokens flag o, Str.Only good t := by
  cases o with
  | none => exact fun _ h => absurd h (List.not_mem_nil _)
  | some v =>
    intro t ht
    rcases List.mem_pair.1 ht with rfl | rfl
    · exact hflag
    · exact ho _ rfl

/-- Every token of a line is made of `good` characters when its chain, selectors,
    ICMP type and verdict are. -/
theorem lineTokens_only {good : Char → Prop} (hflags : Str.Only good flagChars)
    {chain : Str} (hchain : Str.Only good chain) {sel : Selectors} (hsel : sel.Only good)
    {pd : Option Str × Option Str} (hpd : pd ∈ loopPairs sel) {icmptype : Option Str}
    (hicmp : ∀ t, icmptype = some t → Str.Only good t) {action : Str}
    (ha : Str.Only good (Str.upper action)) :
    ∀ t ∈ lineTokens chain pd.2 pd.1 sel.dstports icmptype action, Str.Only good t := by
  obtain ⟨hp, hd⟩ := mem_loopPairs hpd
  have hf : ∀ s : String, s.toList ⊆ flagChars → Str.Only good s.toList :=
    fun _ h => hflags.mono h
  intro t ht
  simp only [lineTokens, List.mem_cons, List.mem_append] at ht
  rcases ht with rfl | rfl | (((ht | ht) | ht) | ht) | rfl | rfl | ht
  · exact hf "-A" (by decide)
  · exact hchain
  · exact optTokens_only (hf "-d" (by decide))
      (fun x hx => let ⟨_, h1, h2⟩ := hd x hx; hsel.2.1 _ h1 x h2) t ht
  · exact optTokens_only (hf "-p" (by decide))
      (fun x hx => let ⟨_, h1, h2⟩ := hp x hx; hsel.1 _ h1 x h2) t ht
  · exact optTokens_only (hf "--dport" (by decide)) hsel.2.2 t ht
  · exact optTokens_only (hf "--icmp-type" (by decide)) hicmp t ht
  · exact hf "-j" (by decide)
  · exact ha
  · exact absurd ht (List.not_mem_nil _)

end QubesFirewall.Iptables
