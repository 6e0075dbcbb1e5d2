import QubesFirewall.Watch

/-! # No exception escapes `main`

    `handle_addr` catches `RuleParseError` and `RuleApplyError`, and after either applies the
    drop rule set; `main` catches only `OSError`, and only in the watch loop.  So an
    exception ends `main` when `init`, `list_targets` or `cleanup` raises, when `handle_addr`
    raises anything else, or when the drop fallback raises after a parse error.

    This module says what each part of the worker raises.  Once the nameservers are read,
    the translation raises only the two caught exceptions; so does `read_rules`, once every
    rule value of the store splits into `key=value` tokens; and a backend that takes its
    own programs takes the drop fallback.  Under those conditions no run of `main` ends in
    an exception, whatever the writers write and whenever the signal comes.
-/

namespace QubesFirewall

/-- The exceptions the `except` clauses of `handle_addr` catch. -/
def PyExc.caught : PyExc → Bool
  | .ruleParseError _ | .ruleApplyError _ => true
  | _ => false

/-- A step of the worker that returns, or raises an exception `handle_addr` catches. -/
def raisesCaught {α : Type} : EStateM.Result PyExc Sys α → Bool
  | .ok _ _ => true
  | .error e _ => e.caught

/-! ## Section 1: Computations that raise -/

section Except

variable {ε α β : Type}

theorem bind_eq_error {x : Except ε α} {g : α → Except ε β} {e : ε} :
    x >>= g = .error e ↔ x = .error e ∨ ∃ a, x = .ok a ∧ g a = .error e := by
  cases x <;> simp [bind, Except.bind]

/-- A loop whose body returns on every element returns. -/
theorem mapM_ok_of_forall {g : α → Except ε β} {l : List α} (h : ∀ x ∈ l, ∃ y, g x = .ok y) :
    ∃ ys, l.mapM g = .ok ys := by
  cases hm : l.mapM g with
  | ok ys => exact ⟨ys, rfl⟩
  | error e =>
    obtain ⟨x, hx, he⟩ := mapM_eq_error hm
    obtain ⟨y, hy⟩ := h x hx
    cases he.symm.trans hy

end Except

/-- A loop of the worker whose body returns from every state returns. -/
theorem forM_ok {γ : Type} {g : γ → WorkerM PUnit} (hg : ∀ x s, ∃ s', g x s = .ok () s') :
    ∀ (L : List γ) (s : Sys), ∃ s', (L.forM g : WorkerM PUnit) s = .ok () s'
  | [], s => ⟨s, rfl⟩
  | x :: L, s => by
    obtain ⟨s₁, h₁⟩ := hg x s
    rw [List.forM, bind_of_ok h₁]
    exact forM_ok hg L s₁

/-! ## Section 2: The translation raises only caught exceptions

    `prepare_rules` raises `IndexError` while reading the nameservers; past that, every
    exception of a rule's translation is a `RuleParseError` (a bad rule, or a host that does
    not resolve).  The lookup of the action cannot raise for rules that have one, as every
    rule `read_rules` returns has. -/

theorem checkRule_error {rule : Dict} {f : Family} {e : PyExc} (h : checkRule rule f = .error e) :
    e.caught := by
  simp only [checkRule, ne_eq, ite_not] at h
  split_ifs at h <;> first | (cases h; rfl) | cases h

theorem resolveHost_error {env : Env} {h : Str} {f : Family} {e : PyExc}
    (hr : resolveHost env h f = .error e) : e.caught := by
  unfold resolveHost at hr
  split at hr
  · cases hr
  · cases hr
    rfl

theorem getItem_ok {d : Dict} {k : Str} (h : d.contains k = true) : ∃ v, d.getItem k = .ok v := by
  rw [Dict.contains_eq_isSome] at h
  obtain ⟨v, hv⟩ := Option.isSome_iff_exists.1 h
  exact ⟨v, by rw [Dict.getItem, hv]⟩

theorem dsthostsOf_error {env : Env} {rule : Dict} {f : Family} {e : PyExc}
    (h : Iptables.dsthostsOf env rule f = .error e) : e.caught := by
  unfold Iptables.dsthostsOf at h
  split at h
  · cases h
  · cases h
  · exact resolveHost_error (map_eq_error.1 h)
  · cases h

theorem ruleLines_error {env : Env} {dns : List Str} {c : Str} {f : Family} {rule : Dict}
    (hact : rule.contains (key "action") = true) {e : PyExc}
    (h : Iptables.ruleLines env dns c f rule = .error e) : e.caught := by
  unfold Iptables.ruleLines at h
  rcases bind_eq_error.1 h with h | ⟨_, -, h⟩
  · exact checkRule_error h
  rcases bind_eq_error.1 h with h | ⟨ds, -, h⟩
  · exact dsthostsOf_error h
  split at h
  · cases h
  · rcases bind_eq_error.1 h with h | ⟨_, -, h⟩
    · obtain ⟨pd, -, h⟩ := mapM_eq_error h
      obtain ⟨v, hv⟩ := getItem_ok hact
      rw [hv] at h
      cases h
    · cases h

theorem daddrClause_error {env : Env} {rule : Dict} {f : Family} {e : PyExc}
    (h : Nftables.daddrClause env rule f = .error e) : e.caught := by
  unfold Nftables.daddrClause at h
  split at h
  · cases h
  · cases h
  · exact resolveHost_error (map_eq_error.1 h)
  · cases h

theorem emit_ne_error {rule : Dict} (hact : rule.contains (key "action") = true) {t : Str}
    {dstports : Option Str} {e : PyExc} : Nftables.emit rule t dstports ≠ .error e := by
  obtain ⟨a, ha⟩ := getItem_ok hact
  unfold Nftables.emit
  split
  · split
    · next hp =>
      obtain ⟨p, hp⟩ := getItem_ok hp
      rw [hp, ha]
      nofun
    · rw [ha]
      nofun
  · rw [ha]
    nofun

theorem ruleStatements_error {env : Env} {dns : List Str} {f : Family} {rule : Dict}
    (hact : rule.contains (key "action") = true) {e : PyExc}
    (h : Nftables.ruleStatements env dns f rule = .error e) : e.caught := by
  unfold Nftables.ruleStatements at h
  rcases bind_eq_error.1 h with h | ⟨_, -, h⟩
  · exact checkRule_error h
  rcases bind_eq_error.1 h with h | ⟨daddr, -, h⟩
  · exact daddrClause_error h
  dsimp only at h
  split_ifs at h <;> first | cases h | exact absurd h (emit_ne_error hact)

/-- Once the nameservers of the family are read, the translation of rules that have an
    action raises only exceptions `handle_addr` catches. -/
theorem Backend.prepare_rules_error {b : Backend} {env : Env} {c : Str} {rules : List Dict}
    {f : Family} (hdns : ∃ N, dns_addresses env.resolvConf (some f) = .ok N)
    (hact : ∀ r ∈ rules, r.contains (key "action") = true) {e : PyExc}
    (h : b.prepare_rules env c rules f = .error e) : e.caught := by
  obtain ⟨N, hN⟩ := hdns
  have hd : dnsList env f = .ok (N.map (· ++ fullmask f)) := by rw [dnsList, hN]; rfl
  cases b
  · change Iptables.prepare_rules env c rules f = .error e at h
    rw [Iptables.prepare_rules, hd] at h
    rcases bind_eq_error.1 h with h | ⟨_, -, h⟩
    · cases h
    rcases bind_eq_error.1 h with h | ⟨_, -, h⟩
    · obtain ⟨r, hr, h⟩ := mapM_eq_error h
      exact ruleLines_error (hact r hr) h
    · cases h
  · change Nftables.prepare_rules env c rules f = .error e at h
    rw [Nftables.prepare_rules, hd] at h
    rcases bind_eq_error.1 h with h | ⟨_, -, h⟩
    · cases h
    rcases bind_eq_error.1 h with h | ⟨_, -, h⟩
    · obtain ⟨r, hr, h⟩ := mapM_eq_error h
      exact ruleStatements_error (hact r hr) h
    · cases h

/-! ## Section 3: What `read_rules` raises

    `read_rules` raises `RuleParseError` for a missing policy, a leaf that is not a rule
    number and a rule without an action.  It raises `ValueError` when a token of a rule has
    no `=` or more than one: `dict(elem.split('=') ...)` takes pairs only.  The leaf of
    every path below the address directory exists, so its `IndexError` never comes. -/

/-- Every token of every rule value of the address splits at `=` into a key and a value. -/
def TokensSplit (db : QubesDB) (addr : Str) : Prop :=
  ∀ kv ∈ (db.multiread (targetDir addr)).items,
    getIdx (Str.split kv.1 '/') 3 ≠ .ok "policy".toList →
      ∀ tok ∈ Str.split kv.2 ' ', (Str.split tok '=').length = 2

instance instDecidableTokensSplit (db : QubesDB) (addr : Str) : Decidable (TokensSplit db addr) :=
  inferInstanceAs (Decidable (∀ kv ∈ _, _))

theorem getIdx_three_ok {a k : Str} (h : targetDir a <+: k) :
    ∃ leaf, getIdx (Str.split k '/') 3 = .ok leaf := by
  obtain ⟨rest, rfl⟩ := h
  have hlen : 3 < (Str.split (targetDir a ++ rest) '/').length := by
    rw [targetDir, List.append_assoc, List.append_assoc, split_firewallDir, List.singleton_append,
      Str.split_append_cons]
    have h1 := List.length_pos.2 (Str.split_ne_nil a '/')
    have h2 := List.length_pos.2 (Str.split_ne_nil rest '/')
    simp only [List.length_cons, List.length_append]
    omega
  exact ⟨_, by rw [getIdx, List.getElem?_eq_getElem hlen]⟩

theorem foldlM_pairs_ok : ∀ (seq : List (List Str)) (d : Dict), (∀ elem ∈ seq, elem.length = 2) →
    ∃ d', seq.foldlM (fun (d : Dict) (elem : List Str) =>
      (match elem with
      | [k, v] => .ok (d.insert k v)
      | _ => .error .valueError : Except PyExc Dict)) d = .ok d'
  | [], d, _ => ⟨d, rfl⟩
  | elem :: seq, d, h => by
    obtain ⟨k, v, rfl⟩ := List.length_eq_two.1 (h elem (List.mem_cons_self _ _))
    exact foldlM_pairs_ok seq (d.insert k v) fun e he => h e (List.mem_cons_of_mem _ he)

theorem tokenDict_ok {rule : Str} (h : ∀ tok ∈ Str.split rule ' ', (Str.split tok '=').length = 2) :
    ∃ d, tokenDict rule = .ok d :=
  foldlM_pairs_ok _ _ fun elem he => by
    obtain ⟨tok, ht, rfl⟩ := List.mem_map.1 he
    exact h tok ht

theorem parseRule_error {ruleno rule : Str}
    (htok : ∀ tok ∈ Str.split rule ' ', (Str.split tok '=').length = 2) {e : PyExc}
    (h : parseRule ruleno rule = .error e) : e.caught := by
  obtain ⟨d, hd⟩ := tokenDict_ok htok
  simp only [parseRule, hd, bind, Except.bind] at h
  split_ifs at h <;> first | (cases h; rfl) | cases h

theorem mem_foldl_insert : ∀ {l : List (Str × Str)} {d : Dict} {kv : Str × Str},
    kv ∈ (l.foldl (fun d kv => d.insert kv.1 kv.2) d).items → kv ∈ d.items ∨ kv ∈ l
  | [], _, _, h => .inl h
  | x :: l, d, kv, h => by
    rcases mem_foldl_insert (l := l) (d := d.insert x.1 x.2) h with h | h
    · unfold Dict.insert at h
      split at h
      · rcases Dict.mem_setValue h with rfl | h
        · exact .inr (List.mem_cons_self _ _)
        · exact .inl h
      · rcases List.mem_append.1 h with h | h
        · exact .inl h
        · exact .inr (List.mem_singleton.1 h ▸ List.mem_cons_self _ _)
    · exact .inr (List.mem_cons_of_mem _ h)

/-- When every rule value of the address splits into tokens, `read_rules` raises only
    `RuleParseError`. -/
theorem read_rules_error {db : QubesDB} {a : Str} (htok : TokensSplit db a) {e : PyExc}
    (h : read_rules db a = .error e) : e.caught := by
  simp only [read_rules] at h
  rcases bind_eq_error.1 h with h | ⟨leaves, hleaves, h⟩
  · obtain ⟨kv, hkv, h⟩ := mapM_eq_error h
    obtain ⟨leaf, hleaf⟩ := getIdx_three_ok (List.isPrefixOf_iff_prefix.1 (List.mem_filter.1 hkv).2)
    rw [hleaf] at h
    cases h
  split at h
  · cases h
    rfl
  rcases bind_eq_error.1 h with h | ⟨_, -, h⟩
  · cases h
  rcases bind_eq_error.1 h with h | ⟨_, -, h⟩
  · obtain ⟨kv, hkv, h⟩ := mapM_eq_error h
    refine parseRule_error ?_ h
    obtain ⟨hmem, hne⟩ := List.mem_filter.1 ((List.perm_insertionSort _ _).mem_iff.1 hkv)
    rcases mem_foldl_insert hmem with h0 | hl
    · exact absurd h0 (List.not_mem_nil _)
    obtain ⟨x, hx, hxkv⟩ := exists_of_forall₂_mem (mapM_eq_ok.1 hleaves) hl
    obtain ⟨leaf, hleaf, hxkv⟩ := bind_eq_ok.1 hxkv
    cases pure_eq_ok.1 hxkv
    exact htok x hx (by rw [hleaf]; exact fun he => (of_decide_eq_true hne) (Except.ok.inj he))
  · cases h

theorem parseRule_contains {ruleno rule : Str} {d : Dict} (h : parseRule ruleno rule = .ok d) :
    d.contains (key "action") = true := by
  cases ht : tokenDict rule with
  | error e =>
    simp only [parseRule, ht, bind, Except.bind] at h
    split_ifs at h
    cases h
  | ok d' =>
    simp only [parseRule, ht, bind, Except.bind] at h
    split_ifs at h with h₁ h₂ <;> cases h
    show d.contains "action".toList = true
    simpa using h₂

/-- Every rule `read_rules` returns has an action: the parsed ones are checked, and the
    policy is the action of the last. -/
theorem read_rules_contains {db : QubesDB} {a : Str} {rules : List Dict}
    (h : read_rules db a = .ok rules) : ∀ r ∈ rules, r.contains (key "action") = true := by
  simp only [read_rules] at h
  obtain ⟨leaves, -, h⟩ := bind_eq_ok.1 h
  split at h
  · cases h
  obtain ⟨_, -, h⟩ := bind_eq_ok.1 h
  obtain ⟨rs, hrs, h⟩ := bind_eq_ok.1 h
  rw [← pure_eq_ok.1 h]
  intro r hr
  rcases List.mem_append.1 hr with hr | hr
  · obtain ⟨kv, -, hkr⟩ := exists_of_forall₂_mem (mapM_eq_ok.1 hrs) hr
    exact parseRule_contains hkr
  · rw [List.mem_singleton.1 hr]
    rfl

/-! ## Section 4: `handle_addr` returns

    With tools that run every command and refuse at most the translations of stored rule
    sets, `apply_rules` returns or raises `RuleApplyError` once the translation is made, and
    the drop fallback returns.  So `handle_addr` catches whatever its body raises, and its
    `except` clauses return. -/

section Rejecting

variable {reject : Str → Option Str} {b : Backend} {env : Env}

theorem create_chain_ok (hacc : AcceptsOwn b env reject) (a c : Str) (f : Family) (s : Sys) :
    ∃ s', b.create_chain (Oracle.rejecting reject) a c f s = .ok () s' := by
  cases b
  · rw [Backend.create_chain, Iptables.create_chain, bind_of_ok (run_ipt_rejecting _ _ _),
      bind_of_ok (run_ipt_rejecting _ _ _), modify_apply]
    exact ⟨_, rfl⟩
  · rw [Backend.create_chain, Nftables.create_chain,
      bind_of_ok (run_nft_accepted (hacc.create f a c) s), modify_apply]
    exact ⟨_, rfl⟩

theorem load_chain_ok {c : Str} {rules : List Dict} {f : Family} {P : Str}
    (hP : b.prepare_rules env c rules f = .ok P) (hr : reject P = none) (s : Sys) :
    ∃ s', b.load_chain (Oracle.rejecting reject) env c rules f s = .ok () s' := by
  cases b
  · change Iptables.prepare_rules env c rules f = .ok P at hP
    rw [Backend.load_chain, Iptables.load_chain, bind_of_ok (liftExcept_ok hP),
      tryCatch_of_ok (by
        rw [bind_of_ok (run_ipt_rejecting _ _ _),
          bind_of_ok (communicate_ok _ (by simp [Oracle.rejecting, hr]))]
        rfl)]
    exact ⟨_, rfl⟩
  · change Nftables.prepare_rules env c rules f = .ok P at hP
    rw [Backend.load_chain, Nftables.load_chain, bind_of_ok (liftExcept_ok hP),
      run_nft_accepted hr]
    exact ⟨_, rfl⟩

theorem load_chain_refused {c : Str} {rules : List Dict} {f : Family} {P out : Str}
    (hP : b.prepare_rules env c rules f = .ok P) (hr : reject P = some out) (s : Sys) :
    ∃ msg s', b.load_chain (Oracle.rejecting reject) env c rules f s =
      .error (.ruleApplyError msg) s' := by
  cases b
  · change Iptables.prepare_rules env c rules f = .ok P at hP
    rw [Backend.load_chain, Iptables.load_chain, bind_of_ok (liftExcept_ok hP),
      tryCatch_of_error (by
        rw [bind_of_ok (run_ipt_rejecting _ _ _), bind_of_ok (@communicate_fail
          (Oracle.rejecting reject) (.iptRestore f P) (s.record (.ipt f [key "-F", c]) .ok) out
          (by simp [Oracle.rejecting, hr]))]
        rfl)]
    exact ⟨_, _, rfl⟩
  · change Nftables.prepare_rules env c rules f = .ok P at hP
    rw [Backend.load_chain, Nftables.load_chain, bind_of_ok (liftExcept_ok hP),
      run_nft_rejected hr]
    exact ⟨_, _, rfl⟩

theorem load_chain_caught {c : Str} {rules : List Dict} {f : Family}
    (hdns : ∃ N, dns_addresses env.resolvConf (some f) = .ok N)
    (hact : ∀ r ∈ rules, r.contains (key "action") = true) (s : Sys) :
    raisesCaught (b.load_chain (Oracle.rejecting reject) env c rules f s) = true := by
  cases hP : b.prepare_rules env c rules f with
  | error e =>
    rw [load_chain_error _ b hP s]
    exact Backend.prepare_rules_error hdns hact hP
  | ok P =>
    cases hr : reject P with
    | none =>
      obtain ⟨s', h⟩ := load_chain_ok hP hr s
      rw [h]
      rfl
    | some out =>
      obtain ⟨msg, s', h⟩ := load_chain_refused hP hr s
      rw [h]
      rfl

/-- The chain is made when the registry lacks it, which always returns; then it is
    loaded. -/
theorem apply_rules_family_of_load (hacc : AcceptsOwn b env reject) (a : Str) (rules : List Dict)
    (f : Family) (s : Sys) :
    ∃ s₁, b.apply_rules_family (Oracle.rejecting reject) env a rules f s =
      b.load_chain (Oracle.rejecting reject) env (b.chain_for_addr a) rules f s₁ := by
  rw [Backend.apply_rules_family_eq]
  split
  · obtain ⟨s₁, h₁⟩ := create_chain_ok hacc a (b.chain_for_addr a) f s
    exact ⟨s₁, bind_of_ok h₁⟩
  · exact ⟨s, rfl⟩

theorem apply_rules_caught (hacc : AcceptsOwn b env reject) {a : Str} {rules : List Dict}
    (hdns : ∃ N, dns_addresses env.resolvConf (some (familyOf a)) = .ok N)
    (hact : ∀ r ∈ rules, r.contains (key "action") = true) (s : Sys) :
    raisesCaught (apply_rules (Oracle.rejecting reject) b env a rules s) = true := by
  obtain ⟨s₁, h⟩ := apply_rules_family_of_load hacc a rules (familyOf a) s
  rw [apply_rules, h]
  exact load_chain_caught hdns hact s₁

/-- The drop fallback returns: it translates once the nameservers are read, and the backend
    takes its program. -/
theorem apply_dropAll_ok (hacc : AcceptsOwn b env reject) {a : Str}
    (hdns : ∃ N, dns_addresses env.resolvConf (some (familyOf a)) = .ok N) (s : Sys) :
    ∃ s', apply_rules (Oracle.rejecting reject) b env a [dropAll] s = .ok () s' := by
  have hact : ∀ r ∈ [dropAll], r.contains (key "action") = true := by
    intro r hr
    rw [List.mem_singleton.1 hr]
    rfl
  obtain ⟨Pd, hPd⟩ := (b.prepare_rules_dropAll env (b.chain_for_addr a) (familyOf a)).resolve_right
    fun h => absurd (Backend.prepare_rules_error hdns hact h) (by decide)
  obtain ⟨s₁, h⟩ := apply_rules_family_of_load hacc a [dropAll] (familyOf a) s
  rw [apply_rules, h]
  exact load_chain_ok hPd (hacc.fallback _ _ _ hPd) s₁

theorem handle_addr_except_ok (hacc : AcceptsOwn b env reject) {a : Str}
    (hdns : ∃ N, dns_addresses env.resolvConf (some (familyOf a)) = .ok N) {e : PyExc}
    (he : e.caught) (s : Sys) :
    ∃ s', handle_addr_except (Oracle.rejecting reject) b env a e s = .ok () s' := by
  cases e with
  | ruleParseError msg =>
    rw [handle_addr_except, bind_of_ok (log_error_rejecting _ _)]
    exact apply_dropAll_ok hacc hdns _
  | ruleApplyError msg =>
    rw [handle_addr_except, bind_of_ok (log_error_rejecting _ _)]
    obtain ⟨s', h⟩ := apply_dropAll_ok hacc hdns (s.record _ .ok)
    exact ⟨s', tryCatch_of_ok h⟩
  | _ => cases he

/-- `handle_addr` returns when the nameservers of the address's family are read and every
    rule value of the address splits into tokens. -/
theorem handle_addr_ok (hacc : AcceptsOwn b env reject) {db : QubesDB} {a : Str}
    (hdns : ∃ N, dns_addresses env.resolvConf (some (familyOf a)) = .ok N)
    (htok : TokensSplit db a) (s : Sys) :
    ∃ s', handle_addr (Oracle.rejecting reject) b env db a s = .ok () s' := by
  rw [handle_addr_eq]
  cases hr : read_rules db a with
  | error e => exact handle_addr_except_ok hacc hdns (read_rules_error htok hr) s
  | ok rules =>
    dsimp only
    have hc := apply_rules_caught hacc hdns (read_rules_contains hr) s
    cases h : apply_rules (Oracle.rejecting reject) b env a rules s with
    | ok u s' => exact ⟨s', tryCatch_of_ok h⟩
    | error e s₁ =>
      rw [h] at hc
      rw [tryCatch_of_error h]
      exact handle_addr_except_ok hacc hdns hc s₁

/-! ## Section 5: `init`, `list_targets` and `cleanup` return -/

theorem Backend.init_ok (hinit : reject Nftables.initProgram = none) (s : Sys) :
    ∃ s', b.init (Oracle.rejecting reject) s = .ok () s' := by
  cases b
  · rw [Backend.init, Iptables.init, tryCatch_of_ok (by
      rw [bind_of_ok (run_ipt_rejecting _ _ _), bind_of_ok (run_ipt_rejecting _ _ _),
        bind_of_ok (run_ipt_rejecting _ _ _), run_ipt_rejecting])]
    exact ⟨_, rfl⟩
  · exact ⟨_, run_nft_accepted hinit s⟩

theorem Backend.cleanup_ok (hclean : reject Nftables.cleanupProgram = none) (s : Sys) :
    ∃ s', b.cleanup (Oracle.rejecting reject) s = .ok () s' := by
  cases b
  · refine forM_ok (fun f s => ?_) _ s
    rw [bind_of_ok (run_ipt_rejecting _ _ _), bind_of_ok (rfl : (get : WorkerM Sys) _ = .ok _ _)]
    exact forM_ok (fun c s => ⟨_, by rw [bind_of_ok (run_ipt_rejecting _ _ _), run_ipt_rejecting]⟩) _ _
  · exact ⟨_, run_nft_accepted hclean s⟩

end Rejecting

/-- Every path below `/qubes-firewall/` has a third component. -/
theorem getIdx_firewall_ok (rest : Str) : ∃ x, getIdx (Str.split (firewallDir ++ rest) '/') 2 = .ok x := by
  have hlen : 2 < (Str.split (firewallDir ++ rest) '/').length := by
    rw [split_firewallDir]
    have := List.length_pos.2 (Str.split_ne_nil rest '/')
    simp only [List.length_cons]
    omega
  exact ⟨_, by rw [getIdx, List.getElem?_eq_getElem hlen]⟩

/-- Every path `QubesDB.list` returns below `/qubes-firewall/` has a second component. -/
theorem list_targets_ok (db : QubesDB) : ∃ ts, list_targets db = .ok ts := by
  obtain ⟨ts, hts⟩ := mapM_ok_of_forall (l := db.list firewallDir)
    (g := fun t => getIdx (Str.split t '/') 2) fun t ht => by
      obtain ⟨rest, rfl⟩ := List.isPrefixOf_iff_prefix.1 (List.mem_filter.1 ht).2
      exact getIdx_firewall_ok rest
  exact ⟨ts.dedup, by rw [list_targets, hts]; rfl⟩

/-! ## Section 6: Runs -/

/-- Every writer's operation is on a path below `/qubes-firewall/`. -/
theorem StoreOp.path_below (op : StoreOp) : ∃ rest, op.path = firewallDir ++ rest := by
  cases op with
  | clear a => exact ⟨a ++ ['/'], by rw [StoreOp.path, targetDir, List.append_assoc]⟩
  | write a leaf _ => exact ⟨a ++ ['/'] ++ leaf, by simp only [StoreOp.path, targetDir, List.append_assoc]⟩
  | commit a => exact ⟨a, rfl⟩

namespace Daemon

/-- The event of a path below `/qubes-firewall/` never makes `main` raise: the path has a
    third component, and `main` skips it when it has more than two `/`. -/
theorem watchTarget_firewall_ne_raised (rest : Str) (e : PyExc) :
    watchTarget (firewallDir ++ rest) ≠ .raised e := by
  obtain ⟨x, hx⟩ := getIdx_firewall_ok rest
  unfold watchTarget
  split_ifs
  · nofun
  · rw [hx]
    nofun

/-- `main` has not raised, and every queued event is on a path below `/qubes-firewall/`. -/
structure Unraised (d : Daemon) : Prop where
  pc : ∀ e, d.pc ≠ .raised e
  queue : ∀ p ∈ d.queue, ∃ rest, p = firewallDir ++ rest

theorem Unraised.after {d : Daemon} (hq : ∀ p ∈ d.queue, ∃ rest, p = firewallDir ++ rest)
    {r : EStateM.Result PyExc Sys Unit} {next : Pc} {onError : PyExc → Pc}
    (hr : ∃ s, r = .ok () s) (hnext : ∀ e, next ≠ .raised e) :
    Unraised (d.after r next onError) := by
  obtain ⟨s, rfl⟩ := hr
  exact ⟨hnext, hq⟩

section Rejecting

variable {reject : Str → Option Str} {b : Backend} {env : Env}
  (hacc : AcceptsOwn b env reject) (hclean : reject Nftables.cleanupProgram = none)
  (hdns : ∀ f, ∃ N, dns_addresses env.resolvConf (some f) = .ok N)

include hacc hclean hdns

/-- A step of `main` keeps the invariant when its `handle_addr` call, if it makes one, reads
    rule values that split into tokens. -/
theorem Unraised.main {d : Daemon} (h : Unraised d)
    (htok : ∀ p ∈ (nextCall d).toList, TokensSplit p.2 p.1) :
    Unraised (step (Oracle.rejecting reject) b env .main d) := by
  rcases d with ⟨pc, sys, db, w, q, tr, wr⟩
  simp only [step]
  cases pc with
  | start =>
    refine Unraised.after ?_ (Backend.init_ok hacc.init sys) fun _ => nofun
    exact h.queue
  | listing =>
    obtain ⟨ts, hts⟩ := list_targets_ok db
    refine ⟨fun e => ?_, h.queue⟩
    show sweepOf (list_targets db) ≠ _
    rw [hts]
    nofun
  | sweep todo =>
    cases todo with
    | nil => exact ⟨fun _ => nofun, h.queue⟩
    | cons a todo =>
      exact Unraised.after h.queue
        (handle_addr_ok hacc (hdns _) (htok _ (List.mem_singleton_self _)) sys) fun _ => nofun
  | loop =>
    cases q with
    | nil => exact h
    | cons p q =>
      obtain ⟨a, rfl⟩ := h.queue p (List.mem_cons_self _ _)
      exact ⟨watchTarget_firewall_ne_raised a, fun p hp => h.queue p (List.mem_cons_of_mem _ hp)⟩
  | handling a =>
    exact Unraised.after h.queue
      (handle_addr_ok hacc (hdns _) (htok _ (List.mem_singleton_self _)) sys) fun _ => nofun
  | cleanup => exact Unraised.after h.queue (Backend.cleanup_ok hclean sys) fun _ => nofun
  | exited => exact h
  | raised e => exact absurd rfl (h.pc e)

omit hacc hclean hdns in
/-- A writer's operation queues the event of its path. -/
theorem Unraised.store {d : Daemon} (h : Unraised d) (op : StoreOp) :
    Unraised (step (Oracle.rejecting reject) b env (.store op) d) := by
  refine ⟨h.pc, fun p hp => ?_⟩
  simp only [step] at hp
  split at hp
  · rcases List.mem_append.1 hp with hp | hp
    · exact h.queue p hp
    · exact List.mem_singleton.1 hp ▸ op.path_below
  · exact h.queue p hp

omit hacc hclean hdns in
/-- A script leaves the place of `main` and its queue as they are. -/
theorem Unraised.script {d : Daemon} (h : Unraised d) (sc : Script) :
    Unraised (step (Oracle.rejecting reject) b env (.script sc) d) := by
  simp only [step]
  split
  · exact ⟨h.pc, h.queue⟩
  · exact h

omit hacc hclean hdns in
/-- The signal moves `main` to `cleanup` or leaves it where it is. -/
theorem Unraised.signal {d : Daemon} (h : Unraised d) :
    Unraised (step (Oracle.rejecting reject) b env .signal d) := by
  refine ⟨fun e => ?_, h.queue⟩
  simp only [step]
  split
  · nofun
  · exact h.pc e

/-- Every move of a run keeps the invariant when every `handle_addr` call of the run reads
    rule values that split into tokens. -/
theorem Unraised.exec : ∀ (ls : List Label) {d : Daemon}, Unraised d →
    (∀ p ∈ calls (Oracle.rejecting reject) b env ls d, TokensSplit p.2 p.1) →
      Unraised (Daemon.exec (Oracle.rejecting reject) b env ls d)
  | [], _, h, _ => h
  | l :: ls, d, h, htok => by
    rw [exec_cons]
    cases l with
    | main =>
      rw [calls_cons_main] at htok
      exact Unraised.exec ls (h.main hacc hclean hdns fun p hp => htok p (List.mem_append_left _ hp))
        fun p hp => htok p (List.mem_append_right _ hp)
    | store op => exact Unraised.exec ls (h.store op) htok
    | script sc => exact Unraised.exec ls (h.script sc) htok
    | signal => exact Unraised.exec ls h.signal htok

end Rejecting

end Daemon

/-- Over every run of `main`, whatever the writers write, whatever the scripts do and
    whenever the signal comes, `main` never ends in an exception, when the tools run every
    command and take the programs of `init`, `create_chain`, the drop fallback and `cleanup`, the nameservers of
    both families are read, and every rule value that a `handle_addr` call of the run reads
    splits into `key=value` tokens. -/
theorem main_raises_nothing {reject : Str → Option Str} {b : Backend} {env : Env}
    (hacc : AcceptsOwn b env reject) (hclean : reject Nftables.cleanupProgram = none)
    (hdns : ∀ f, ∃ N, dns_addresses env.resolvConf (some f) = .ok N) (k₀ : Kernel)
    (db₀ : QubesDB) (ls : List Label)
    (htok : ∀ p ∈ Daemon.calls (Oracle.rejecting reject) b env ls (Daemon.boot k₀ db₀),
      TokensSplit p.2 p.1) :
    ∀ e, (Daemon.exec (Oracle.rejecting reject) b env ls (Daemon.boot k₀ db₀)).pc ≠ .raised e :=
  (Daemon.Unraised.exec hacc hclean hdns ls ⟨fun _ h => (by cases h), fun _ h => (by cases h)⟩ htok).pc

/-- The nftables worker of the HTTPS run: an update for `10.137.0.5` while `main` waits. -/
theorem main_raises_nothing_https :
    AcceptsOwn .nftables Daemon.noNameservers (fun _ => none) ∧
      (∀ f, ∃ N, dns_addresses Daemon.noNameservers.resolvConf (some f) = .ok N) ∧
      (∀ p ∈ Daemon.calls (Oracle.rejecting fun _ => none) .nftables Daemon.noNameservers httpsRun
        (Daemon.boot Kernel.fresh Daemon.acceptStoreSix), TokensSplit p.2 p.1) ∧
      ∀ e, (Daemon.exec (Oracle.rejecting fun _ => none) .nftables Daemon.noNameservers httpsRun
        (Daemon.boot Kernel.fresh Daemon.acceptStoreSix)).pc ≠ .raised e := by
  have hacc : AcceptsOwn .nftables Daemon.noNameservers (fun _ => none) :=
    ⟨rfl, fun _ _ _ => rfl, fun _ _ _ _ => rfl⟩
  have hdns : ∀ f, ∃ N, dns_addresses Daemon.noNameservers.resolvConf (some f) = .ok N :=
    fun f => ⟨[], by cases f <;> rfl⟩
  have htok : ∀ p ∈ Daemon.calls (Oracle.rejecting fun _ => none) .nftables Daemon.noNameservers
      httpsRun (Daemon.boot Kernel.fresh Daemon.acceptStoreSix), TokensSplit p.2 p.1 := by
    decide
  exact ⟨hacc, hdns, htok, main_raises_nothing hacc rfl hdns _ _ _ htok⟩

end QubesFirewall
