import QubesFirewall.Install

/-! # Every handled address keeps one jump and its chain

    When every command runs and the backend may refuse only the translation of a stored rule
    set, every `handle_addr` call that returns leaves its address with one jump from the
    forward chain of its family, the target chain in the registry, and in that chain the
    rules of the program of the rule set it read; when the rule set did not translate, or
    the backend refused its program, the rules of the drop fallback instead.  Over a run of
    `main` this holds of every address handled so far, at the store of its last call, as
    long as `main` has neither raised nor begun `cleanup`, when the addresses are one word,
    their stored values keep the programs' shape, and no two addresses of one family share
    a chain name.  Two such addresses break it: the second gets no jump, and its rules
    replace the first's.
-/

namespace QubesFirewall

/-! ## Section 1: What `handle_addr` leaves -/

variable (b : Backend) (env : Env) (reject : Str → Option Str)

/-- The rules the drop fallback puts in chain `c` of family `f`. -/
def Backend.fallbackRules (c : Str) (f : Family) : List Str :=
  match b.prepare_rules env c [dropAll] f with
  | .ok P => b.chainRules c P
  | .error _ => []

/-- The rules `handle_addr` leaves in the chain of `addr` after reading `db`: those of the
    program of the rule set, when it translates and the backend takes it, and the drop
    fallback's otherwise. -/
def expected (db : QubesDB) (addr : Str) : List Str :=
  match read_rules db addr >>= fun rules =>
      b.prepare_rules env (b.chain_for_addr addr) rules (familyOf addr) with
  | .ok P =>
    if reject P = none then b.chainRules (b.chain_for_addr addr) P
    else b.fallbackRules env (b.chain_for_addr addr) (familyOf addr)
  | .error _ => b.fallbackRules env (b.chain_for_addr addr) (familyOf addr)

/-- The tables once `apply_rules` has made the chain of `addr`, when the registry lacks it. -/
def Backend.created (s : Sys) (addr : Str) : Kernel :=
  if b.chain_for_addr addr ∈ s.chains (familyOf addr) then s.kernel
  else s.kernel.modify (familyOf addr) (b.makeChain addr (b.chain_for_addr addr))

variable {b env reject}

theorem Sys.mem_addChain {s : Sys} {f f' : Family} {c c' : Str} :
    c' ∈ (s.addChain f c).chains f' ↔ c' ∈ s.chains f' ∨ f' = f ∧ c' = c := by
  by_cases hf : f' = f
  · subst hf
    simp [Sys.addChain, List.mem_insert_iff, or_comm]
  · simp [Sys.addChain, hf]

theorem Kernel.modify_setChain_setChain (k : Kernel) (f : Family) (c : Str)
    (v w : Option (List Str)) :
    (k.modify f (·.setChain c v)).modify f (·.setChain c w) = k.modify f (·.setChain c w) := by
  rw [Kernel.modify_modify]
  exact congrArg (k.modify f) (funext fun t => Table.setChain_setChain t c v w)

@[simp] theorem Kernel.modify_setChain_jumps (k : Kernel) (f g : Family) (c : Str)
    (v : Option (List Str)) : ((k.modify f (·.setChain c v)) g).jumps = (k g).jumps := by
  by_cases hg : g = f
  · subst hg
    simp
  · rw [Kernel.modify_ne _ _ hg]

@[simp] theorem Kernel.modify_setChain_policy (k : Kernel) (f g : Family) (c : Str)
    (v : Option (List Str)) : ((k.modify f (·.setChain c v)) g).policy = (k g).policy := by
  by_cases hg : g = f
  · subst hg
    simp
  · rw [Kernel.modify_ne _ _ hg]

theorem Kernel.modify_setChain_chains (k : Kernel) {f g : Family} {c c' : Str}
    (v : Option (List Str)) (h : g ≠ f ∨ c' ≠ c) :
    ((k.modify f (·.setChain c v)) g).chains c' = (k g).chains c' := by
  by_cases hg : g = f
  · subst hg
    rw [Kernel.modify_self, Table.setChain_ne _ _ (h.resolve_left (not_not.2 rfl))]
  · rw [Kernel.modify_ne _ _ hg]

theorem expected_of_bind_ok {db : QubesDB} {a P : Str}
    (h : (read_rules db a >>= fun rules =>
      b.prepare_rules env (b.chain_for_addr a) rules (familyOf a)) = .ok P) :
    expected b env reject db a =
      if reject P = none then b.chainRules (b.chain_for_addr a) P
      else b.fallbackRules env (b.chain_for_addr a) (familyOf a) := by
  rw [expected, h]

theorem expected_of_bind_error {db : QubesDB} {a : Str} {e : PyExc}
    (h : (read_rules db a >>= fun rules =>
      b.prepare_rules env (b.chain_for_addr a) rules (familyOf a)) = .error e) :
    expected b env reject db a = b.fallbackRules env (b.chain_for_addr a) (familyOf a) := by
  rw [expected, h]

theorem Backend.makeChain_chains_ne (b : Backend) {a c c' : Str} (t : Table) (h : c' ≠ c) :
    (b.makeChain a c t).chains c' = t.chains c' := by
  cases b <;> exact Table.setChain_ne _ _ h

theorem Backend.makeChain_isSome (b : Backend) (a c : Str) (t : Table) :
    ((b.makeChain a c t).chains c).isSome := by
  cases b <;> simp [Backend.makeChain]

theorem Backend.makeChain_filter_ne (b : Backend) {a a' c : Str} (t : Table) (h : a' ≠ a) :
    (b.makeChain a c t).jumps.filter (·.1 = a') = t.jumps.filter (·.1 = a') := by
  cases b <;> simp [Backend.makeChain, Ne.symm h]

/-- A new jump for `a` is not met by a packet from a host `a` does not name. -/
theorem Backend.makeChain_filter_other (b : Backend) {a c src : Str} (t : Table)
    (h : sameHost a src = false) :
    (b.makeChain a c t).jumps.filter (fun j => sameHost j.1 src) =
      t.jumps.filter fun j => sameHost j.1 src := by
  cases b <;> simp [Backend.makeChain, List.filter_append, h]

theorem Backend.makeChain_policy (b : Backend) (a c : Str) (t : Table) :
    (b.makeChain a c t).policy = t.policy := by
  cases b <;> rfl

theorem Backend.makeChain_filter_self (b : Backend) {a c : Str} {t : Table}
    (h : t.jumps.filter (·.1 = a) = []) : (b.makeChain a c t).jumps.filter (·.1 = a) = [(a, c)] := by
  cases b <;> simp [Backend.makeChain, h]

theorem Backend.created_of_mem {s : Sys} {a : Str}
    (h : b.chain_for_addr a ∈ s.chains (familyOf a)) : b.created s a = s.kernel := if_pos h

theorem Backend.created_chains {s : Sys} {a c' : Str} {g : Family}
    (h : g ≠ familyOf a ∨ c' ≠ b.chain_for_addr a) :
    (b.created s a g).chains c' = (s.kernel g).chains c' := by
  unfold Backend.created
  split
  · rfl
  · by_cases hg : g = familyOf a
    · subst hg
      rw [Kernel.modify_self, b.makeChain_chains_ne _ (h.resolve_left (not_not.2 rfl))]
    · rw [Kernel.modify_ne _ _ hg]

theorem Backend.created_policy {s : Sys} {a : Str} (g : Family) :
    (b.created s a g).policy = (s.kernel g).policy := by
  unfold Backend.created
  split
  · rfl
  · by_cases hg : g = familyOf a
    · subst hg
      rw [Kernel.modify_self, b.makeChain_policy]
    · rw [Kernel.modify_ne _ _ hg]

theorem Backend.created_filter_ne {s : Sys} {a a' : Str} (g : Family) (h : a' ≠ a) :
    (b.created s a g).jumps.filter (·.1 = a') = (s.kernel g).jumps.filter (·.1 = a') := by
  unfold Backend.created
  split
  · rfl
  · by_cases hg : g = familyOf a
    · subst hg
      rw [Kernel.modify_self, b.makeChain_filter_ne _ h]
    · rw [Kernel.modify_ne _ _ hg]

/-! ## Section 2: `handle_addr` when only translations may be refused -/

section Handle

variable (hacc : AcceptsOwn b env reject) {a : Str} (ha : AddrWord a)
  (henv : env.ResolvesOnly b.ValueChar (familyOf a))
  (hns : ∀ N, dns_addresses env.resolvConf (some (familyOf a)) = .ok N →
    ∀ n ∈ N, Str.Only b.ValueChar n)

include hacc ha

/-- `apply_rules` makes the chain of `addr` when the registry lacks it, and goes on as
    `load_chain` from a state with the chain made and registered. -/
theorem apply_rules_rejecting (s : Sys)
    (hreg : b.chain_for_addr a ∈ s.chains (familyOf a) →
      ((s.kernel (familyOf a)).chains (b.chain_for_addr a)).isSome) :
    ∃ s₁, (∀ rules, apply_rules (Oracle.rejecting reject) b env a rules s =
        b.load_chain (Oracle.rejecting reject) env (b.chain_for_addr a) rules (familyOf a) s₁) ∧
      s₁.kernel = b.created s a ∧
      s₁.chains = (s.addChain (familyOf a) (b.chain_for_addr a)).chains ∧
      ((s₁.kernel (familyOf a)).chains (b.chain_for_addr a)).isSome := by
  by_cases hm : b.chain_for_addr a ∈ s.chains (familyOf a)
  · refine ⟨s, fun rules => ?_, (Backend.created_of_mem hm).symm,
      (Sys.addChain_chains_of_mem hm).symm, hreg hm⟩
    rw [apply_rules, Backend.apply_rules_family_eq, if_neg (not_not.2 hm)]
  · obtain ⟨s₁, h₁, hk, hc⟩ := create_chain_rejecting b env hacc ha (b.chain_ne_nil a)
      (b.oneWord_chain ha.2) (b.chain_ne_forward a) (familyOf a) s
    refine ⟨s₁, fun rules => ?_, hk.trans (if_neg hm).symm, hc, ?_⟩
    · rw [apply_rules, Backend.apply_rules_family_eq, if_pos hm, bind_of_ok h₁]
    · rw [hk, Kernel.modify_self]
      exact b.makeChain_isSome _ _ _

include henv hns

/-- `apply_rules` of the drop fallback returns, with its rules in the chain, unless reading
    the nameservers raises `IndexError`. -/
theorem apply_dropAll_rejecting (t : Sys)
    (hreg : b.chain_for_addr a ∈ t.chains (familyOf a) →
      ((t.kernel (familyOf a)).chains (b.chain_for_addr a)).isSome) :
    (∃ t', apply_rules (Oracle.rejecting reject) b env a [dropAll] t = .ok () t' ∧
      t'.chains = (t.addChain (familyOf a) (b.chain_for_addr a)).chains ∧
      t'.kernel = (b.created t a).modify (familyOf a)
        (·.setChain (b.chain_for_addr a) (some (b.fallbackRules env (b.chain_for_addr a) (familyOf a))))) ∨
    ∃ t', apply_rules (Oracle.rejecting reject) b env a [dropAll] t = .error .indexError t' := by
  obtain ⟨t₁, happly, hk, hc, hex⟩ := apply_rules_rejecting hacc ha t hreg
  rcases b.prepare_rules_dropAll env (b.chain_for_addr a) (familyOf a) with ⟨Pd, hPd⟩ | hPd
  · obtain ⟨t', hl, hk', hc'⟩ := load_chain_accepted b hPd
      (b.prepare_rules_shaped ha.2 (dropAll_valuesOnly b) henv hns hPd) (hacc.fallback _ _ _ hPd)
      (b.chain_ne_nil a) (b.chain_ne_forward a) (b.chain_ne_qbsForward a) t₁ hex
    refine .inl ⟨t', (happly _).trans hl, hc'.trans hc, ?_⟩
    rw [hk', hk, Backend.fallbackRules, hPd]
  · exact .inr ⟨t₁, (happly _).trans (load_chain_error _ b hPd t₁)⟩

/-- The `except` clauses of `handle_addr`, when they return, leave the chain of `addr` made,
    registered, and holding the drop fallback's rules. -/
theorem handle_addr_except_rejecting (e : PyExc) {t t' : Sys}
    (hreg : b.chain_for_addr a ∈ t.chains (familyOf a) →
      ((t.kernel (familyOf a)).chains (b.chain_for_addr a)).isSome)
    (h : handle_addr_except (Oracle.rejecting reject) b env a e t = .ok () t') :
    t'.chains = (t.addChain (familyOf a) (b.chain_for_addr a)).chains ∧
      t'.kernel = (b.created t a).modify (familyOf a)
        (·.setChain (b.chain_for_addr a) (some (b.fallbackRules env (b.chain_for_addr a) (familyOf a)))) := by
  cases e with
  | ruleParseError msg =>
    rw [handle_addr_except, bind_of_ok (log_error_rejecting _ _)] at h
    rcases apply_dropAll_rejecting hacc ha henv hns (t.record (.notifySend _) .ok) hreg with
      ⟨t'', hd, hc, hk⟩ | ⟨t'', hd⟩
    · rw [hd] at h
      cases h
      exact ⟨hc, hk⟩
    · rw [hd] at h
      cases h
  | ruleApplyError msg =>
    rw [handle_addr_except, bind_of_ok (log_error_rejecting _ _)] at h
    rcases apply_dropAll_rejecting hacc ha henv hns (t.record (.notifySend _) .ok) hreg with
      ⟨t'', hd, hc, hk⟩ | ⟨t'', hd⟩
    · rw [tryCatch_of_ok hd] at h
      cases h
      exact ⟨hc, hk⟩
    · rw [tryCatch_of_error hd] at h
      cases h
  | _ => cases h

/-- `handle_addr`, when it returns, leaves the chain of `addr` made, registered, and holding
    the rules `expected` names. -/
theorem handle_addr_rejecting {db : QubesDB}
    (hdb : (db.multiread (targetDir a)).ValuesOnly b.ValueChar) {s s' : Sys}
    (hreg : b.chain_for_addr a ∈ s.chains (familyOf a) →
      ((s.kernel (familyOf a)).chains (b.chain_for_addr a)).isSome)
    (h : handle_addr (Oracle.rejecting reject) b env db a s = .ok () s') :
    s'.chains = (s.addChain (familyOf a) (b.chain_for_addr a)).chains ∧
      s'.kernel = (b.created s a).modify (familyOf a)
        (·.setChain (b.chain_for_addr a) (some (expected b env reject db a))) := by
  obtain ⟨s₁, happly, hk₁, hc₁, hex₁⟩ := apply_rules_rejecting hacc ha s hreg
  have hm₁ : b.chain_for_addr a ∈ s₁.chains (familyOf a) :=
    hc₁ ▸ Sys.mem_addChain.2 (.inr ⟨rfl, rfl⟩)
  -- the `except` clauses, run after `load_chain` from `s₁` has raised
  have hexcept : ∀ e (t : Sys), t.chains = s₁.chains →
      (∃ r, t.kernel = s₁.kernel.modify (familyOf a) (·.setChain (b.chain_for_addr a) (some r))) →
      handle_addr_except (Oracle.rejecting reject) b env a e t = .ok () s' →
      s'.chains = (s.addChain (familyOf a) (b.chain_for_addr a)).chains ∧
        s'.kernel = (b.created s a).modify (familyOf a) (·.setChain (b.chain_for_addr a)
          (some (b.fallbackRules env (b.chain_for_addr a) (familyOf a)))) := by
    rintro e t hct ⟨r, hkt⟩ he
    have hmt : b.chain_for_addr a ∈ t.chains (familyOf a) := hct ▸ hm₁
    obtain ⟨hc, hk⟩ := handle_addr_except_rejecting hacc ha henv hns e
      (fun _ => by rw [hkt, Kernel.modify_self, Table.setChain_self]; rfl) he
    refine ⟨by rw [hc, Sys.addChain_chains_of_mem hmt, hct, hc₁], ?_⟩
    rw [hk, Backend.created_of_mem hmt, hkt, Kernel.modify_setChain_setChain, hk₁]
  rw [handle_addr_eq] at h
  cases hr : read_rules db a with
  | error e =>
    rw [hr] at h
    rw [expected_of_bind_error (by rw [hr]; rfl)]
    exact handle_addr_except_rejecting hacc ha henv hns e hreg h
  | ok rules =>
    rw [hr] at h
    dsimp only at h
    cases hp : b.prepare_rules env (b.chain_for_addr a) rules (familyOf a) with
    | error e =>
      rw [tryCatch_of_error ((happly rules).trans (load_chain_error _ b hp s₁))] at h
      obtain ⟨r, hr₁⟩ := Option.isSome_iff_exists.1 hex₁
      rw [expected_of_bind_error (by rw [hr]; exact hp)]
      exact hexcept e s₁ rfl ⟨r, (Kernel.modify_of_eq _ (Table.setChain_of_eq _ hr₁)).symm⟩ h
    | ok P =>
      have hshape := b.prepare_rules_shaped ha.2 (read_rules_valuesOnly hdb hr) henv hns hp
      rw [expected_of_bind_ok (by rw [hr]; exact hp)]
      cases hj : reject P with
      | none =>
        obtain ⟨s₂, hl, hk₂, hc₂⟩ := load_chain_accepted b hp hshape hj (b.chain_ne_nil a)
          (b.chain_ne_forward a) (b.chain_ne_qbsForward a) s₁ hex₁
        rw [tryCatch_of_ok ((happly rules).trans hl)] at h
        cases h
        rw [if_pos rfl, ← hk₁]
        exact ⟨hc₂.trans hc₁, hk₂⟩
      | some out =>
        obtain ⟨msg, s₂, hl, hc₂, r, hk₂⟩ := load_chain_rejected b hp hj (b.chain_ne_qbsForward a)
          s₁ hex₁
        rw [tryCatch_of_error ((happly rules).trans hl)] at h
        rw [if_neg (Option.some_ne_none out)]
        exact hexcept _ s₂ hc₂ ⟨r, hk₂⟩ h

end Handle

/-! ## Section 3: The invariant after a sequence of calls -/

/-- The store the last call for `addr` among the calls `H` read. -/
def lastRead (addr : Str) (H : List (Str × QubesDB)) : QubesDB :=
  H.foldl (fun db p => if p.1 = addr then p.2 else db) Dict.empty

theorem lastRead_append_self (H : List (Str × QubesDB)) (a : Str) (db : QubesDB) :
    lastRead a (H ++ [(a, db)]) = db := by
  simp [lastRead]

theorem lastRead_append_ne (H : List (Str × QubesDB)) {a a' : Str} (db : QubesDB) (h : a' ≠ a) :
    lastRead a' (H ++ [(a, db)]) = lastRead a' H := by
  simp [lastRead, Ne.symm h]

variable (b env reject)

/-- The family of an address text: IPv6 exactly when it holds a colon. -/
theorem familyOf_eq_ite (a : Str) : familyOf a = if ':' ∈ a then .six else .four := by
  simp only [familyOf, is_ip6, gt_iff_lt, List.count_pos_iff, decide_eq_true_eq]

/-- An address literal is of the family of the address it names. -/
theorem familyOf_of_hostOf {x : Str} {f : Family} {v : List Nat} (h : hostOf x = some (f, v)) :
    familyOf x = f :=
  (familyOf_eq_ite x).trans (hostOf_family h).symm

/-- What the tables and the registry hold for `addr`: one jump for traffic from the address
    it names in the forward chain of its family, to its chain; the chain in the registry;
    `rules` in it. -/
def Installed (s : Sys) (addr : Str) (rules : List Str) : Prop :=
  (s.kernel (familyOf addr)).jumps.filter (fun j => sameHost j.1 addr) =
      [(addr, b.chain_for_addr addr)] ∧
    b.chain_for_addr addr ∈ s.chains (familyOf addr) ∧
    (s.kernel (familyOf addr)).chains (b.chain_for_addr addr) = some rules

instance (s : Sys) (addr : Str) (rules : List Str) : Decidable (Installed b s addr rules) :=
  inferInstanceAs (Decidable (_ ∧ _ ∧ _))

/-- The invariant after the calls `H`: the registry holds only chains of addresses
    handled; an address has one jump when it was handled and none otherwise; and the chain
    of each handled address is registered and holds what its last call leaves. -/
structure Good (H : List (Str × QubesDB)) (s : Sys) : Prop where
  registry : ∀ f c, c ∈ s.chains f →
    ∃ a ∈ H.map Prod.fst, familyOf a = f ∧ b.chain_for_addr a = c
  jumps : ∀ a, (s.kernel (familyOf a)).jumps.filter (·.1 = a) =
    if a ∈ H.map Prod.fst then [(a, b.chain_for_addr a)] else []
  installed : ∀ a ∈ H.map Prod.fst, b.chain_for_addr a ∈ s.chains (familyOf a) ∧
    (s.kernel (familyOf a)).chains (b.chain_for_addr a) =
      some (expected b env reject (lastRead a H) a)

variable {b env reject} {H : List (Str × QubesDB)} {s : Sys}

/-- Under the invariant, a jump for the address `a` names names a handled literal of it. -/
theorem Good.mem_of_sameHost (hG : Good b env reject H s) {a : Str} {j : Str × Str}
    (hj : j ∈ (s.kernel (familyOf a)).jumps) (hs : sameHost j.1 a = true) :
    j.1 ∈ H.map Prod.fst ∧ hostOf j.1 = hostOf a := by
  have hh := hostOf_eq_of_sameHost hs
  obtain ⟨⟨f, v⟩, hv⟩ := Option.isSome_iff_exists.1 (isSome_of_sameHost hs)
  have hf : familyOf j.1 = familyOf a := by
    rw [familyOf_of_hostOf hv, familyOf_of_hostOf (hh ▸ hv)]
  refine ⟨by_contra fun hn => ?_, hh⟩
  have hnil := hG.jumps j.1
  rw [if_neg hn, hf] at hnil
  exact List.not_mem_nil j (hnil ▸ List.mem_filter.2 ⟨hj, decide_eq_true rfl⟩)

/-- Under the invariant, the jumps for the address a handled literal names are those for its
    text, when no other handled address is a literal of that address. -/
theorem Good.filter_sameHost (hG : Good b env reject H s) {a : Str} (hlit : (hostOf a).isSome)
    (hdist : ∀ a' ∈ H.map Prod.fst, hostOf a' = hostOf a → a' = a) :
    (s.kernel (familyOf a)).jumps.filter (fun j => sameHost j.1 a) =
      (s.kernel (familyOf a)).jumps.filter (·.1 = a) := by
  refine List.filter_congr fun j hj => ?_
  by_cases he : j.1 = a
  · rw [he, sameHost_self hlit, decide_eq_true rfl]
  · rw [decide_eq_false he]
    refine Bool.eq_false_iff.2 fun hs => he ?_
    obtain ⟨hmem, hh⟩ := hG.mem_of_sameHost hj hs
    exact hdist j.1 hmem hh

/-- Under the invariant, no jump is for the address of a text that no handled address is a
    literal of. -/
theorem Good.filter_sameHost_eq_nil (hG : Good b env reject H s) {a : Str}
    (hnone : ∀ a' ∈ H.map Prod.fst, hostOf a' ≠ hostOf a) :
    (s.kernel (familyOf a)).jumps.filter (fun j => sameHost j.1 a) = [] :=
  List.filter_eq_nil_iff.2 fun j hj hs =>
    let h := hG.mem_of_sameHost hj hs
    hnone j.1 h.1 h.2

/-- An address no call handled, of which no handled address is another literal, is of an
    address no handled address names. -/
theorem not_alias_of_not_mem {cs : List (Str × QubesDB)} {a : Str}
    (hsrc : ∀ p ∈ cs, hostOf p.1 = hostOf a → p.1 = a) (hmem : a ∉ cs.map Prod.fst) :
    ∀ a' ∈ cs.map Prod.fst, hostOf a' ≠ hostOf a := by
  intro a' ha' he
  obtain ⟨p, hp, rfl⟩ := List.mem_map.1 ha'
  exact hmem (hsrc p hp he ▸ ha')

theorem Good.installed_of_mem (hG : Good b env reject H s) {a : Str} (ha : a ∈ H.map Prod.fst)
    (hlit : (hostOf a).isSome) (hdist : ∀ a' ∈ H.map Prod.fst, hostOf a' = hostOf a → a' = a) :
    Installed b s a (expected b env reject (lastRead a H) a) :=
  ⟨(hG.filter_sameHost hlit hdist).trans ((hG.jumps a).trans (if_pos ha)), hG.installed a ha⟩

theorem Good.chain_isSome (hG : Good b env reject H s) {f : Family} {c : Str}
    (hm : c ∈ s.chains f) : ((s.kernel f).chains c).isSome := by
  obtain ⟨a, ha, rfl, rfl⟩ := hG.registry f c hm
  rw [(hG.installed a ha).2]
  rfl

/-- Tables without jumps and an empty registry hold the invariant before any call. -/
theorem Good.nil (hc : ∀ f c, c ∉ s.chains f) (hj : ∀ f, (s.kernel f).jumps = []) :
    Good b env reject [] s :=
  ⟨fun f c hm => absurd hm (hc f c), fun a => by rw [hj]; rfl,
    fun _ ha => absurd ha (List.not_mem_nil _)⟩

/-- A call for `addr` that leaves what `handle_addr_rejecting` says keeps the invariant,
    when no address handled before shares its family and chain name. -/
theorem Good.handle (hG : Good b env reject H s) {a : Str} {db : QubesDB}
    (hdist : ∀ a' ∈ H.map Prod.fst, familyOf a' = familyOf a →
      b.chain_for_addr a' = b.chain_for_addr a → a' = a) {s' : Sys}
    (hc : s'.chains = (s.addChain (familyOf a) (b.chain_for_addr a)).chains)
    (hk : s'.kernel = (b.created s a).modify (familyOf a)
      (·.setChain (b.chain_for_addr a) (some (expected b env reject db a)))) :
    Good b env reject (H ++ [(a, db)]) s' := by
  have hmem : ∀ {a'}, a' ∈ (H ++ [(a, db)]).map Prod.fst ↔ a' ∈ H.map Prod.fst ∨ a' = a := by
    simp only [List.map_append, List.map_cons, List.map_nil, List.mem_append, List.mem_singleton,
      implies_true]
  -- the chain of `a` is registered exactly when `a` was handled before
  have hreg : b.chain_for_addr a ∈ s.chains (familyOf a) ↔ a ∈ H.map Prod.fst :=
    ⟨fun hm => by
      obtain ⟨a', ha', hf, hc'⟩ := hG.registry _ _ hm
      exact hdist a' ha' hf hc' ▸ ha',
    fun ha => (hG.installed a ha).1⟩
  refine ⟨fun f c hm => ?_, fun a' => ?_, fun a' ha' => ?_⟩
  · rw [hc, Sys.mem_addChain] at hm
    rcases hm with hm | ⟨rfl, rfl⟩
    · obtain ⟨a', ha', h⟩ := hG.registry f c hm
      exact ⟨a', hmem.2 (.inl ha'), h⟩
    · exact ⟨a, hmem.2 (.inr rfl), rfl, rfl⟩
  · rw [hk, Kernel.modify_setChain_jumps]
    by_cases he : a' = a
    · subst he
      rw [if_pos (hmem.2 (.inr rfl))]
      by_cases hm : b.chain_for_addr a' ∈ s.chains (familyOf a')
      · rw [Backend.created_of_mem hm, hG.jumps, if_pos (hreg.1 hm)]
      · rw [Backend.created, if_neg hm, Kernel.modify_self]
        exact b.makeChain_filter_self ((hG.jumps a').trans (if_neg (mt hreg.2 hm)))
    · rw [Backend.created_filter_ne _ he, hG.jumps]
      simp only [hmem, he, or_false]
  · rw [hc, hk]
    by_cases he : a' = a
    · subst he
      refine ⟨Sys.mem_addChain.2 (.inr ⟨rfl, rfl⟩), ?_⟩
      rw [Kernel.modify_self, Table.setChain_self, lastRead_append_self]
    · have ha'H : a' ∈ H.map Prod.fst := (hmem.1 ha').resolve_right he
      have hne : familyOf a' ≠ familyOf a ∨ b.chain_for_addr a' ≠ b.chain_for_addr a := by
        by_contra hn
        push_neg at hn
        exact he (hdist a' ha'H hn.1 hn.2)
      obtain ⟨hm', hcont⟩ := hG.installed a' ha'H
      refine ⟨Sys.mem_addChain.2 (.inl hm'), ?_⟩
      rw [Kernel.modify_setChain_chains _ _ hne, Backend.created_chains hne, hcont,
        lastRead_append_ne _ _ he]

/-! ## Section 4: Runs of `main` -/

/-- `main` has raised, returned, or begun `cleanup`. -/
def Pc.stopped : Pc → Bool
  | .cleanup | .exited | .raised _ => true
  | _ => false

variable (b env reject)

/-- The calls of a run handle one-word address literals whose stored values are made of the
    backend's value characters; no two addresses of one family share a chain name, and no two
    are literals of one address. -/
structure WellFormedCalls (cs : List (Str × QubesDB)) : Prop where
  words : ∀ p ∈ cs, AddrWord p.1 ∧ (p.2.multiread (targetDir p.1)).ValuesOnly b.ValueChar
  chains : ∀ p ∈ cs, ∀ q ∈ cs, familyOf p.1 = familyOf q.1 →
    b.chain_for_addr p.1 = b.chain_for_addr q.1 → p.1 = q.1
  hosts : ∀ p ∈ cs, (hostOf p.1).isSome ∧ ∀ q ∈ cs, hostOf q.1 = hostOf p.1 → q.1 = p.1

instance (cs : List (Str × QubesDB)) : Decidable (WellFormedCalls b cs) :=
  decidable_of_iff (_ ∧ _ ∧ _) ⟨fun ⟨a, c, h⟩ => ⟨a, c, h⟩, fun ⟨a, c, h⟩ => ⟨a, c, h⟩⟩

/-- The invariant of a run after the calls `H`: `main` has stopped, or the invariant holds,
    no call was made before `init`, and once `init` has run both forward chains end with its
    drop. -/
def RunInv (H : List (Str × QubesDB)) (d : Daemon) : Prop :=
  d.pc.stopped ∨ (Good b env reject H d.sys ∧ (d.pc = .start → H = []) ∧
    (d.pc ≠ .start → ∀ f, (d.sys.kernel f).policy = some (b.verdictOf (key "drop"))))

variable {b env reject}

theorem WellFormedCalls.mono {cs cs' : List (Str × QubesDB)} (h : cs' ⊆ cs)
    (hw : WellFormedCalls b cs) : WellFormedCalls b cs' :=
  ⟨fun p hp => hw.words p (h hp), fun p hp q hq => hw.chains p (h hp) q (h hq),
    fun p hp => ⟨(hw.hosts p (h hp)).1, fun q hq => (hw.hosts p (h hp)).2 q (h hq)⟩⟩

/-- A handled address of well-formed calls is a literal, and no other is a literal of its
    address. -/
theorem WellFormedCalls.host {cs : List (Str × QubesDB)} (hw : WellFormedCalls b cs) {a : Str}
    (ha : a ∈ cs.map Prod.fst) :
    (hostOf a).isSome ∧ ∀ a' ∈ cs.map Prod.fst, hostOf a' = hostOf a → a' = a := by
  obtain ⟨p, hp, rfl⟩ := List.mem_map.1 ha
  refine ⟨(hw.hosts p hp).1, fun a' ha' he => ?_⟩
  obtain ⟨q, hq, rfl⟩ := List.mem_map.1 ha'
  exact (hw.hosts p hp).2 q hq he

/-- A script keeps the invariant: it changes no jump and no chain of the worker's. -/
theorem Good.script (hG : Good b env reject H s) (sc : Script) :
    Good b env reject H { s with kernel := sc.run s.kernel } where
  registry := hG.registry
  jumps a := by
    show List.filter _ (sc.run s.kernel (familyOf a)).jumps = _
    rw [(sc.forward _ _).1]
    exact hG.jumps a
  installed a ha := ⟨(hG.installed a ha).1,
    (sc.owned _ _ _ (b.chain_owned a)).trans (hG.installed a ha).2⟩

/-- A script's move keeps the invariant of the run. -/
theorem RunInv.script {d : Daemon} (h : RunInv b env reject H d) (sc : Script) :
    RunInv b env reject H { d with sys := { d.sys with kernel := sc.run d.sys.kernel } } := by
  rcases h with h | ⟨hG, hH, hpol⟩
  · exact .inl h
  · exact .inr ⟨hG.script sc, hH, fun hs f => (sc.forward _ f).2.trans (hpol hs f)⟩

/-- A step that keeps the process, neither goes back to `init` nor skips it, keeps the
    invariant. -/
theorem RunInv.keep {d d' : Daemon} (h : RunInv b env reject H d) (hs : d'.sys = d.sys)
    (hstart : d'.pc = .start → d.pc = .start) (hinit : d.pc = .start → d'.pc = .start)
    (hstop : d.pc.stopped → d'.pc.stopped) : RunInv b env reject H d' := by
  rcases h with h | ⟨hG, hH, hpol⟩
  · exact .inl (hstop h)
  · exact .inr ⟨hs ▸ hG, fun h => hH (hstart h), fun h => hs ▸ hpol fun h' => h (hinit h')⟩

section Run

variable (hacc : AcceptsOwn b env reject) (henv : ∀ f, env.ResolvesOnly b.ValueChar f)
  (hns : ∀ f N, dns_addresses env.resolvConf (some f) = .ok N → ∀ n ∈ N, Str.Only b.ValueChar n)

include hacc

/-- `init` keeps the invariant before any call, and ends both forward chains with a drop:
    the legacy backend empties `QBS-FORWARD` and appends `-j DROP`, and the nftables program
    changes no jump and sets the policy `drop`. -/
theorem init_good {s : Sys} (hG : Good b env reject [] s) :
    ∃ s', b.init (Oracle.rejecting reject) s = .ok () s' ∧ Good b env reject [] s' ∧
      ∀ f, (s'.kernel f).policy = some (b.verdictOf (key "drop")) := by
  cases b
  · rw [Backend.init, Iptables.init, tryCatch_of_ok (by
      rw [bind_of_ok (run_ipt_rejecting _ _ _), bind_of_ok (run_ipt_rejecting _ _ _),
        bind_of_ok (run_ipt_rejecting _ _ _)]
      exact run_ipt_rejecting _ _ _)]
    refine ⟨_, rfl, Good.nil (fun f c hm => ?_) fun f => ?_, fun f => ?_⟩
    · obtain ⟨a, ha, -⟩ := hG.registry f c hm
      exact absurd ha (List.not_mem_nil _)
    · cases f <;> simp [Kernel.exec, Kernel.modify, Table.ipt_flush_forward, Table.ipt_append_drop]
    · cases f <;> rfl
  · rw [Backend.init, Nftables.init, run_nft_accepted hacc.init]
    have hk : (s.record (.nft Nftables.initProgram) .ok).kernel =
        fun f => { s.kernel f with policy := some (key "drop") } := by
      rw [Sys.record_ok_kernel, Kernel.exec, nft_initProgram]
    refine ⟨_, rfl, ⟨hG.registry, fun a => ?_, fun _ ha => absurd ha (List.not_mem_nil _)⟩,
      fun f => by rw [hk]; rfl⟩
    rw [hk]
    exact hG.jumps a

include henv hns

/-- A `handle_addr` step of `main` keeps the invariant, with the call added to the calls:
    a call that returns keeps `Good`, and one that raises stops `main`. -/
theorem runInv_handle {d : Daemon} (hG : Good b env reject H d.sys)
    (hpol : ∀ f, (d.sys.kernel f).policy = some (b.verdictOf (key "drop"))) {a : Str}
    (hw : WellFormedCalls b (H ++ [(a, d.db)])) {next : Pc} (hnext : next ≠ .start)
    {onError : PyExc → Pc} (hstop : ∀ e, (onError e).stopped) :
    RunInv b env reject (H ++ [(a, d.db)])
      (d.after (handle_addr (Oracle.rejecting reject) b env d.db a d.sys) next onError) := by
  cases hh : handle_addr (Oracle.rejecting reject) b env d.db a d.sys with
  | ok _ s' =>
    obtain ⟨ha, hdb⟩ := hw.words (a, d.db) (by simp)
    obtain ⟨hc, hk⟩ := handle_addr_rejecting hacc ha (henv _) (hns _) hdb hG.chain_isSome hh
    refine .inr ⟨hG.handle (fun a' ha' => ?_) hc hk, fun h => absurd h hnext, fun _ f => ?_⟩
    · obtain ⟨p, hp, rfl⟩ := List.mem_map.1 ha'
      exact hw.chains p (by simp [hp]) (a, d.db) (by simp)
    · show (s'.kernel f).policy = _
      rw [hk, Kernel.modify_setChain_policy, Backend.created_policy, hpol]
  | error e s' => exact .inl (hstop e)

/-- A step of `main` keeps the invariant, with its call, if it makes one, added. -/
theorem runInv_main {d : Daemon} (h : RunInv b env reject H d)
    (hw : WellFormedCalls b (H ++ (Daemon.nextCall d).toList)) :
    RunInv b env reject (H ++ (Daemon.nextCall d).toList)
      ((Daemon.mainStep (Oracle.rejecting reject) b env d).getD d) := by
  rcases d with ⟨pc, sys, db, w, q, tr⟩
  cases pc with
  | start =>
    rcases h with h | ⟨hG, hH, -⟩
    · cases h
    · obtain rfl := hH rfl
      obtain ⟨s', hi, hG', hpol⟩ := init_good hacc hG
      simp only [Daemon.mainStep, Daemon.nextCall, Option.getD_some, hi]
      exact .inr ⟨hG', fun _ => rfl, fun _ => hpol⟩
  | sweep todo =>
    cases todo with
    | nil =>
      simp only [Daemon.nextCall, Option.toList_none, List.append_nil]
      exact h.keep rfl nofun nofun nofun
    | cons a todo =>
      rcases h with h | ⟨hG, -, hpol⟩
      · cases h
      · refine runInv_handle hacc henv hns hG (hpol nofun) hw ?_ fun _ => rfl
        nofun
  | handling a =>
    rcases h with h | ⟨hG, -, hpol⟩
    · cases h
    · refine runInv_handle hacc henv hns hG (hpol nofun) hw ?_ fun e => ?_
      · nofun
      · by_cases he : e = .osError <;> simp [he, Pc.stopped]
  | cleanup =>
    refine .inl ?_
    simp only [Daemon.mainStep, Option.getD_some, Daemon.after]
    split <;> rfl
  | loop =>
    simp only [Daemon.nextCall, Option.toList_none, List.append_nil]
    cases q with
    | nil => exact h
    | cons p q => exact h.keep rfl (fun h' => absurd h' (Daemon.watchTarget_ne_start p)) nofun nofun
  | listing =>
    simp only [Daemon.nextCall, Option.toList_none, List.append_nil]
    exact h.keep rfl (fun h' => absurd h' (Daemon.sweepOf_ne_start _)) nofun nofun
  | exited | raised _ => simpa only [Daemon.nextCall, Option.toList_none, List.append_nil] using h

/-- Every step of a run keeps the invariant, with the calls of `main` added. -/
theorem runInv_exec : ∀ (ls : List Label) {H : List (Str × QubesDB)} {d : Daemon},
    RunInv b env reject H d →
    WellFormedCalls b (H ++ Daemon.calls (Oracle.rejecting reject) b env ls d) →
    RunInv b env reject (H ++ Daemon.calls (Oracle.rejecting reject) b env ls d)
      (Daemon.exec (Oracle.rejecting reject) b env ls d)
  | [], H, d, h, _ => by rw [Daemon.calls, List.append_nil]; exact h
  | l :: ls, H, d, h, hw => by
    rw [Daemon.exec_cons]
    cases l with
    | main =>
      rw [Daemon.calls_cons_main, ← List.append_assoc] at hw ⊢
      exact runInv_exec ls (runInv_main hacc henv hns h (hw.mono (List.prefix_append _ _).subset)) hw
    | store op =>
      rw [Daemon.calls_cons_store] at hw ⊢
      exact runInv_exec ls (h.keep rfl id id id) hw
    | script sc =>
      rw [Daemon.calls_cons_script] at hw ⊢
      refine runInv_exec ls ?_ hw
      simp only [Daemon.step]
      split
      · exact h.script sc
      · exact h
    | signal =>
      rw [Daemon.calls_cons_signal] at hw ⊢
      have hpc : (Daemon.step (Oracle.rejecting reject) b env .signal d).pc = .cleanup ∨
          (Daemon.step (Oracle.rejecting reject) b env .signal d).pc = d.pc := by
        simp only [Daemon.step]
        split <;> simp
      refine runInv_exec ls (h.keep rfl (fun h' => ?_) (fun h' => ?_) fun h' => ?_) hw
      · rcases hpc with hpc | hpc
        · rw [hpc] at h'
          cases h'
        · rwa [hpc] at h'
      · rcases hpc with hpc | hpc
        · simp [Daemon.step, h'] at hpc
        · rw [hpc, h']
      · rcases hpc with hpc | hpc <;> rw [hpc]
        · rfl
        · exact h'

end Run

/-- Over every run of `main` from tables without jumps, when every command runs and the
    backend refuses only translations of stored rule sets: while `main` has neither raised
    nor begun `cleanup`, and the calls of the run handle one-word address literals with
    values of the backend's characters, no two of one family sharing a chain name and no two
    naming one address, every address handled has exactly one jump for traffic from it in the
    forward chain of its family, to its chain, its chain registered, and in it the rules its
    last call leaves. -/
theorem handled_addresses_installed (hacc : AcceptsOwn b env reject)
    (henv : ∀ f, env.ResolvesOnly b.ValueChar f)
    (hns : ∀ f N, dns_addresses env.resolvConf (some f) = .ok N → ∀ n ∈ N, Str.Only b.ValueChar n)
    (k₀ : Kernel) (hk₀ : ∀ f, (k₀ f).jumps = []) (db₀ : QubesDB) (ls : List Label) :
    let cs := Daemon.calls (Oracle.rejecting reject) b env ls (Daemon.boot k₀ db₀)
    let d := Daemon.exec (Oracle.rejecting reject) b env ls (Daemon.boot k₀ db₀)
    WellFormedCalls b cs → d.pc.stopped = false →
      ∀ a ∈ cs.map Prod.fst, Installed b d.sys a (expected b env reject (lastRead a cs) a) := by
  intro cs d hw hrun a ha
  have hboot : RunInv b env reject [] (Daemon.boot k₀ db₀) :=
    .inr ⟨Good.nil (fun _ _ hm => absurd hm (List.not_mem_nil _)) hk₀, fun _ => rfl, fun h => absurd rfl h⟩
  rcases runInv_exec hacc henv hns ls hboot ((List.nil_append cs).symm ▸ hw) with h | ⟨hG, -⟩
  · exact absurd h (by simp only [hrun]; decide)
  · obtain ⟨hlit, hdist⟩ := hw.host ha
    exact (List.nil_append cs ▸ hG).installed_of_mem ha hlit hdist


/-- A writer adds a rule set for `10.137.0.5` after the initial load of `10.137.0.6`. -/
def commitRun : List Label :=
  [.main, .main, .main, .main] ++ Label.update (key "10.137.0.5") [(key "policy", key "drop")] ++
    [.main, .main, .main, .main]

/-- Both addresses of the run end installed under the nftables worker. -/
theorem handled_addresses_installed_commit :
    let cs := Daemon.calls (Oracle.rejecting fun _ => none) .nftables Daemon.noNameservers commitRun
      (Daemon.boot Kernel.fresh Daemon.acceptStoreSix)
    let d := Daemon.exec (Oracle.rejecting fun _ => none) .nftables Daemon.noNameservers commitRun
      (Daemon.boot Kernel.fresh Daemon.acceptStoreSix)
    WellFormedCalls .nftables cs ∧ d.pc.stopped = false ∧
      ∀ a ∈ cs.map Prod.fst, Installed .nftables d.sys a
        (expected .nftables Daemon.noNameservers (fun _ => none) (lastRead a cs) a) := by
  intro cs d
  have hw : WellFormedCalls .nftables cs := by decide
  have hr : d.pc.stopped = false := by decide
  refine ⟨hw, hr, handled_addresses_installed ⟨rfl, fun _ _ _ => rfl, fun _ _ _ _ => rfl⟩
    (fun _ _ _ h => ?_) (fun f N h => ?_) Kernel.fresh (fun _ => rfl) _ commitRun hw hr⟩
  · cases h
    exact fun _ ha => absurd ha (List.not_mem_nil _)
  · have hN : N = [] := by cases f <;> exact (Except.ok.inj h).symm
    exact fun _ hn => absurd (hN ▸ hn) (List.not_mem_nil _)

/-- The store with policy `accept` for `::ffff:1.2.3.4`, then policy `drop` for
    `::ffff:1:2:3:4`. -/
def collidingStore : QubesDB :=
  QubesDB.commit (QubesDB.commit Dict.empty (key "::ffff:1.2.3.4") [(key "policy", key "accept")])
    (key "::ffff:1:2:3:4") [(key "policy", key "drop")]

/-- `::ffff:1.2.3.4` and `::ffff:1:2:3:4` are literals of two addresses with one chain name,
    `qbs---ffff-1-2-3-4`.  The initial load handles the first and then the second, which finds
    the chain registered: the second gets no jump, and its `DROP` replaces the first's
    `ACCEPT`. -/
theorem colliding_chains_uninstalled :
    let cs := Daemon.calls (Oracle.rejecting fun _ => none) .iptables Daemon.noNameservers
      [.main, .main, .main, .main] (Daemon.boot Kernel.fresh collidingStore)
    let d := Daemon.exec (Oracle.rejecting fun _ => none) .iptables Daemon.noNameservers
      [.main, .main, .main, .main] (Daemon.boot Kernel.fresh collidingStore)
    (∀ p ∈ cs, AddrWord p.1 ∧
      (p.2.multiread (targetDir p.1)).ValuesOnly Backend.iptables.ValueChar) ∧
    (∀ p ∈ cs, (hostOf p.1).isSome ∧ ∀ q ∈ cs, hostOf q.1 = hostOf p.1 → q.1 = p.1) ∧
    d.pc.stopped = false ∧ cs.map Prod.fst = [key "::ffff:1.2.3.4", key "::ffff:1:2:3:4"] ∧
    Backend.iptables.chain_for_addr (key "::ffff:1.2.3.4") =
      Backend.iptables.chain_for_addr (key "::ffff:1:2:3:4") ∧
    ¬ Installed .iptables d.sys (key "::ffff:1.2.3.4") (expected .iptables Daemon.noNameservers
      (fun _ => none) (lastRead (key "::ffff:1.2.3.4") cs) (key "::ffff:1.2.3.4")) ∧
    ¬ Installed .iptables d.sys (key "::ffff:1:2:3:4") (expected .iptables Daemon.noNameservers
      (fun _ => none) (lastRead (key "::ffff:1:2:3:4") cs) (key "::ffff:1:2:3:4")) := by
  decide

end QubesFirewall
