import QubesFirewall.Watch

/-! # The registry agrees with the tables, whatever the commands do

    `apply_rules_family` decides whether to make the chain of an address from the registry
    `self.chains` alone: it runs `create_chain` exactly when the chain is not registered.
    That is right only while the registry agrees with the tables, and any command may fail
    on the way: `iptables -N` may succeed and the `-I` after it fail, `nft` may refuse a
    program, `notify-send` may not start.

    The registry is added to only once every command of `create_chain` has succeeded, and
    every other command the worker runs before `cleanup` keeps every jump and every chain
    (`init`'s empties `QBS-FORWARD` while nothing is registered).  So under any oracle and
    with either backend, when the handled addresses are one word and their stored values
    keep the programs' shape: until `main` returns or raises, every registered chain exists
    and has exactly one jump to it, no jump goes to a chain that is not registered, and each
    jump sends the traffic of an address to that address's own chain, in its family.
-/

namespace QubesFirewall

/-! ## Section 1: The agreement -/

/-- The registry `reg` agrees with the tables `k`: a registered chain exists and has one
    jump to it, a chain that is not registered has none, and a jump for traffic from `a`
    goes to the chain of `a`, in the family of `a`. -/
structure Consistent (b : Backend) (k : Kernel) (reg : Family → List Str) : Prop where
  made : ∀ f c, c ∈ reg f → ((k f).chains c).isSome
  oneJump : ∀ f c, ((k f).jumps.map Prod.snd).count c = if c ∈ reg f then 1 else 0
  ownChain : ∀ f a c, (a, c) ∈ (k f).jumps → b.chain_for_addr a = c ∧ familyOf a = f

namespace Table

/-- `t'` has the jumps and the final verdict of `t`, and every chain `t` has. -/
def Grows (t t' : Table) : Prop :=
  t'.jumps = t.jumps ∧ t'.policy = t.policy ∧ ∀ c, (t.chains c).isSome → (t'.chains c).isSome

theorem Grows.refl (t : Table) : t.Grows t := ⟨rfl, rfl, fun _ h => h⟩

theorem Grows.trans {t t' t'' : Table} (h : t.Grows t') (h' : t'.Grows t'') : t.Grows t'' :=
  ⟨h'.1.trans h.1, h'.2.1.trans h.2.1, fun c hc => h'.2.2 c (h.2.2 c hc)⟩

theorem grows_setChain (t : Table) (c : Str) (r : List Str) : t.Grows (t.setChain c (some r)) := by
  refine ⟨rfl, rfl, fun c' hc' => ?_⟩
  by_cases h : c' = c
  · rw [h, setChain_self]
    rfl
  · rwa [setChain_ne _ _ h]

theorem grows_flush (t : Table) (c : Str) : t.Grows (t.flush c) := by
  refine ⟨rfl, rfl, fun c' hc' => ?_⟩
  by_cases h : c' = c
  · rw [h, flush, setChain_self]
    rw [h] at hc'
    simpa using hc'
  · rwa [flush, setChain_ne _ _ h]

theorem grows_restoreLine (t : Table) (line : Str) : t.Grows (t.restoreLine line) := by
  unfold restoreLine
  split
  · split
    · exact grows_setChain _ _ _
    · exact Grows.refl t
  · exact Grows.refl t

/-- `iptables-restore -n` keeps every jump and every chain, whatever the program. -/
theorem grows_restore (t : Table) (P : Str) : t.Grows (t.restore P) := by
  unfold restore
  induction Str.split P '\n' generalizing t with
  | nil => exact Grows.refl t
  | cons l ls ih => exact (grows_restoreLine t l).trans (ih _)

end Table

variable {b : Backend}

/-- A change of one family's table that keeps its jumps and chains keeps the agreement. -/
theorem Consistent.modify {k : Kernel} {reg : Family → List Str} (h : Consistent b k reg)
    {f : Family} {g : Table → Table} (hg : (k f).Grows (g (k f))) :
    Consistent b (k.modify f g) reg := by
  have hk : ∀ f', (k f').Grows (k.modify f g f') := fun f' => by
    by_cases hf : f' = f
    · subst hf
      rwa [Kernel.modify_self]
    · rw [Kernel.modify_ne _ _ hf]
      exact Table.Grows.refl _
  refine ⟨fun f' c hc => (hk f').2.2 c (h.made f' c hc), fun f' c => ?_, fun f' a c hm => ?_⟩
  · rw [(hk f').1]
    exact h.oneJump f' c
  · rw [(hk f').1] at hm
    exact h.ownChain f' a c hm

/-- With nothing registered, the tables agree exactly when they hold no jump. -/
theorem consistent_empty {k : Kernel} (hj : ∀ f, (k f).jumps = []) :
    Consistent b k fun _ => [] :=
  ⟨fun _ _ hc => absurd hc (List.not_mem_nil _), fun f c => by rw [hj]; rfl,
    fun f a c hm => absurd (hj f ▸ hm) (List.not_mem_nil _)⟩

theorem Consistent.jumps_eq_nil {k : Kernel} (h : Consistent b k fun _ => []) (f : Family) :
    (k f).jumps = [] := by
  refine List.eq_nil_iff_forall_not_mem.2 fun ⟨a, c⟩ hm => ?_
  have hc := h.oneJump f c
  rw [if_neg (List.not_mem_nil c), List.count_eq_zero] at hc
  exact hc (List.mem_map_of_mem Prod.snd hm)

/-- Every registered chain is the chain of an address, so one the worker owns. -/
theorem Consistent.owned {k : Kernel} {reg : Family → List Str} (h : Consistent b k reg)
    {f : Family} {c : Str} (hc : c ∈ reg f) : Str.startswith c (key "qbs-") = true := by
  have hcount := h.oneJump f c
  rw [if_pos hc] at hcount
  have hmem : c ∈ (k f).jumps.map Prod.snd := List.count_pos_iff.1 (by omega)
  obtain ⟨⟨a, c⟩, hj, rfl⟩ := List.mem_map.1 hmem
  exact (h.ownChain f a _ hj).1 ▸ b.chain_owned a

/-- A script keeps the agreement: it keeps the jumps and the worker's own chains. -/
theorem Consistent.script {k : Kernel} {reg : Family → List Str} (h : Consistent b k reg)
    (sc : Script) : Consistent b (sc.run k) reg where
  made f c hc := sc.owned k f c (h.owned hc) ▸ h.made f c hc
  oneJump f c := (sc.forward k f).1 ▸ h.oneJump f c
  ownChain f a c hm := h.ownChain f a c ((sc.forward k f).1 ▸ hm)

theorem Backend.mem_makeChain_jumps (b : Backend) {a c : Str} {t : Table} {p : Str × Str} :
    p ∈ (b.makeChain a c t).jumps ↔ p = (a, c) ∨ p ∈ t.jumps := by
  cases b <;> simp [Backend.makeChain, or_comm]

theorem Backend.count_makeChain_jumps (b : Backend) (a c c' : Str) (t : Table) :
    ((b.makeChain a c t).jumps.map Prod.snd).count c' =
      (t.jumps.map Prod.snd).count c' + if c' = c then 1 else 0 := by
  cases b <;> by_cases h : c = c' <;> simp [Backend.makeChain, List.count_cons, h, Ne.symm]

/-- Making the chain of `a`, when it is not registered, with its jump, and registering it
    keeps the agreement. -/
theorem Consistent.makeChain {k : Kernel} {reg : Family → List Str} (h : Consistent b k reg)
    {a : Str} (hreg : b.chain_for_addr a ∉ reg (familyOf a)) :
    Consistent b (k.modify (familyOf a) (b.makeChain a (b.chain_for_addr a)))
      fun f' => if f' = familyOf a then (reg (familyOf a)).insert (b.chain_for_addr a) else reg f' := by
  refine ⟨fun f c hc => ?_, fun f c => ?_, fun f a' c hm => ?_⟩
  · by_cases hf : f = familyOf a
    · subst hf
      rw [if_pos rfl, List.mem_insert_iff] at hc
      rw [Kernel.modify_self]
      rcases hc with rfl | hc
      · exact b.makeChain_isSome _ _ _
      · by_cases hc' : c = b.chain_for_addr a
        · rw [hc']
          exact b.makeChain_isSome _ _ _
        · rw [b.makeChain_chains_ne _ hc']
          exact h.made _ c hc
    · rw [if_neg hf] at hc
      rw [Kernel.modify_ne _ _ hf]
      exact h.made f c hc
  · by_cases hf : f = familyOf a
    · subst hf
      rw [if_pos rfl, Kernel.modify_self, b.count_makeChain_jumps, h.oneJump]
      by_cases hc : c = b.chain_for_addr a
      · subst hc
        simp [hreg]
      · simp [hc, List.mem_insert_iff]
    · rw [if_neg hf, Kernel.modify_ne _ _ hf]
      exact h.oneJump f c
  · by_cases hf : f = familyOf a
    · subst hf
      rw [Kernel.modify_self, b.mem_makeChain_jumps] at hm
      rcases hm with hm | hm
      · cases hm
        exact ⟨rfl, rfl⟩
      · exact h.ownChain _ a' c hm
    · rw [Kernel.modify_ne _ _ hf] at hm
      exact h.ownChain f a' c hm

/-- A command of the legacy tool that keeps every jump and chain keeps the agreement. -/
theorem Consistent.exec_ipt {k : Kernel} {reg : Family → List Str} (h : Consistent b k reg)
    {f : Family} {args : List Str} (hg : ∀ t : Table, t.Grows (t.ipt args)) :
    Consistent b (k.exec (.ipt f args)) reg :=
  h.modify (g := fun t => t.ipt args) (hg _)

/-- A process whose tables are those of `s` with the chain of `a` made, once that chain is
    registered, agrees when `s` did and the chain was not registered. -/
theorem Consistent.addChain {s s' : Sys} (h : Consistent b s.kernel s.chains) {a : Str}
    (hreg : b.chain_for_addr a ∉ s.chains (familyOf a))
    (hk : s'.kernel = s.kernel.modify (familyOf a) (b.makeChain a (b.chain_for_addr a)))
    (hc : s'.chains = s.chains) :
    Consistent b (s'.addChain (familyOf a) (b.chain_for_addr a)).kernel
      (s'.addChain (familyOf a) (b.chain_for_addr a)).chains := by
  show Consistent b s'.kernel fun f' =>
    if f' = familyOf a then (s'.chains (familyOf a)).insert (b.chain_for_addr a) else s'.chains f'
  rw [hk, hc]
  exact h.makeChain hreg

/-! ## Section 2: Steps of the worker that keep a property of the tables and the registry -/

/-- The state a step of the worker leaves, whether it returns or raises. -/
def stateOf {α : Type} : EStateM.Result PyExc Sys α → Sys
  | .ok _ s => s
  | .error _ s => s

/-- A step of the worker keeps `J` of the tables and the registry, whether it returns or
    raises. -/
def Keeps {α : Type} (J : Kernel → (Family → List Str) → Prop) (x : WorkerM α) : Prop :=
  ∀ s, J s.kernel s.chains → J (stateOf (x s)).kernel (stateOf (x s)).chains

section Keeps

variable {J : Kernel → (Family → List Str) → Prop} {α β : Type}

theorem Keeps.pure (a : α) : Keeps J (Pure.pure a : WorkerM α) := fun _ hs => hs

theorem Keeps.throw (e : PyExc) : Keeps J (throw e : WorkerM α) := fun _ hs => hs

theorem Keeps.bind {x : WorkerM α} {g : α → WorkerM β} (hx : Keeps J x) (hg : ∀ a, Keeps J (g a)) :
    Keeps J (x >>= g) := by
  intro s hs
  have h₁ := hx s hs
  cases h : x s with
  | ok a s₁ =>
    rw [h] at h₁
    rw [bind_of_ok h]
    exact hg a s₁ h₁
  | error e s₁ =>
    rw [h] at h₁
    rwa [bind_of_error h]

/-- A bind on a translation needs its step to keep `J` only after a translation that
    returns. -/
theorem Keeps.bind_liftExcept {y : Except PyExc α} {g : α → WorkerM β}
    (hg : ∀ a, y = .ok a → Keeps J (g a)) : Keeps J (liftExcept y >>= g) := by
  intro s hs
  cases hy : y with
  | ok a => rw [bind_of_ok (liftExcept_ok rfl)]; exact hg a hy s hs
  | error e => rwa [bind_of_error (liftExcept_error rfl)]

theorem Keeps.tryCatch {x : WorkerM α} {k : PyExc → WorkerM α} (hx : Keeps J x)
    (hk : ∀ e, Keeps J (k e)) : Keeps J (tryCatch x k) := by
  intro s hs
  have h₁ := hx s hs
  cases h : x s with
  | ok a s₁ =>
    rw [h] at h₁
    rwa [tryCatch_of_ok h]
  | error e s₁ =>
    rw [h] at h₁
    rw [tryCatch_of_error h]
    exact hk e s₁ h₁

variable {o : Oracle} {c : Cmd}

/-- A command whose success keeps `J` keeps it however it ends: only status zero changes
    the tables. -/
theorem Keeps.run (hc : ∀ s : Sys, J s.kernel s.chains → J (s.kernel.exec c) s.chains) :
    Keeps J (run o c) := by
  intro s hs
  show J (s.record c (o s.ran c)).kernel s.chains
  by_cases ho : o s.ran c = .ok
  · rw [ho]
    exact hc s hs
  · rwa [Sys.record, if_neg ho]

theorem Keeps.check_call (hc : ∀ s : Sys, J s.kernel s.chains → J (s.kernel.exec c) s.chains) :
    Keeps J (check_call o c) :=
  (Keeps.run hc).bind fun r => by cases r <;> first | exact Keeps.pure _ | exact Keeps.throw _

theorem Keeps.communicate (hc : ∀ s : Sys, J s.kernel s.chains → J (s.kernel.exec c) s.chains) :
    Keeps J (communicate o c) :=
  (Keeps.run hc).bind fun r => by cases r <;> first | exact Keeps.pure _ | exact Keeps.throw _

theorem Keeps.log_error (msg : Str) : Keeps J (log_error o msg) :=
  (Keeps.run fun _ hs => hs).bind fun r => by cases r <;> first | exact Keeps.pure _ | exact Keeps.throw _

theorem Keeps.run_nft {P : Str} (hc : ∀ s : Sys, J s.kernel s.chains → J (s.kernel.nft P) s.chains) :
    Keeps J (Nftables.run_nft o P) :=
  (Keeps.communicate hc).bind fun r => by cases r <;> first | exact Keeps.pure _ | exact Keeps.throw _

/-- What a step keeps holds in particular when it returns. -/
theorem Keeps.of_ok {x : WorkerM α} (h : Keeps J x) {s s' : Sys} {v : α} (hs : J s.kernel s.chains)
    (hx : x s = .ok v s') : J s'.kernel s'.chains := by
  have h₁ := h s hs
  rwa [hx] at h₁

end Keeps

/-! ## Section 3: `handle_addr` keeps what `create_chain` and `load_chain` keep

    The calls of `handle_addr`'s body and of its `except` clauses change the tables and the
    registry only through `create_chain` and `load_chain` (the rest runs `notify-send`), so
    a property both keep is kept by `handle_addr`, whether it returns or raises.  The rule
    sets `load_chain` is given are the one `read_rules` returned and the drop fallback: a
    property `R` of both is all `load_chain` may need. -/

section Traversal

variable {o : Oracle} {env : Env} {J : Kernel → (Family → List Str) → Prop} {a : Str}
  {R : List Dict → Prop}
  (hcreate : ∀ s : Sys, J s.kernel s.chains → b.chain_for_addr a ∉ s.chains (familyOf a) →
    J (stateOf (b.create_chain o a (b.chain_for_addr a) (familyOf a) s)).kernel
      (stateOf (b.create_chain o a (b.chain_for_addr a) (familyOf a) s)).chains)
  (hload : ∀ rules : List Dict, R rules →
    Keeps J (b.load_chain o env (b.chain_for_addr a) rules (familyOf a)))

include hcreate hload

theorem apply_rules_keeps {rules : List Dict} (hrules : R rules) :
    Keeps J (apply_rules o b env a rules) := by
  intro s hs
  rw [apply_rules, Backend.apply_rules_family_eq]
  split
  · next hreg =>
    have h₁ := hcreate s hs hreg
    cases h : b.create_chain o a (b.chain_for_addr a) (familyOf a) s with
    | ok u s₁ =>
      rw [h] at h₁
      rw [bind_of_ok h]
      exact hload rules hrules s₁ h₁
    | error e s₁ =>
      rw [h] at h₁
      rwa [bind_of_error h]
  · exact hload rules hrules s hs

theorem handle_addr_except_keeps (hdrop : R [dropAll]) (e : PyExc) :
    Keeps J (handle_addr_except o b env a e) := by
  replace hdrop := apply_rules_keeps hcreate hload hdrop
  unfold handle_addr_except
  cases e
  case ruleParseError msg => exact (Keeps.log_error _).bind fun _ => hdrop
  case ruleApplyError msg =>
    refine (Keeps.log_error _).bind fun _ => Keeps.tryCatch hdrop fun e => ?_
    cases e
    case ruleApplyError => exact Keeps.log_error _
    all_goals exact Keeps.throw _
  all_goals exact Keeps.throw _

theorem handle_addr_keeps {db : QubesDB} (hread : ∀ rules, read_rules db a = .ok rules → R rules)
    (hdrop : R [dropAll]) : Keeps J (handle_addr o b env db a) := by
  intro s hs
  rw [handle_addr_eq]
  cases hr : read_rules db a with
  | ok rules =>
    exact Keeps.tryCatch (apply_rules_keeps hcreate hload (hread rules hr))
      (handle_addr_except_keeps hcreate hload hdrop) s hs
  | error e => exact handle_addr_except_keeps hcreate hload hdrop e s hs

end Traversal

/-! ## Section 4: The worker's steps keep the agreement -/

section Worker

variable {o : Oracle} {env : Env}

theorem check_call_cases (o : Oracle) (c : Cmd) (s : Sys) :
    check_call o c s = .ok () (s.record c .ok) ∨
      ∃ e, check_call o c s = .error e (s.record c (o s.ran c)) ∧ o s.ran c ≠ .ok := by
  cases h : o s.ran c with
  | ok => exact .inl (check_call_ok o h)
  | fail out => exact .inr ⟨_, by rw [check_call, bind_of_ok (run_eq o c s), h]; rfl, nofun⟩
  | noStart => exact .inr ⟨_, by rw [check_call, bind_of_ok (run_eq o c s), h]; rfl, nofun⟩

theorem run_nft_cases (o : Oracle) (P : Str) (s : Sys) :
    Nftables.run_nft o P s = .ok () (s.record (.nft P) .ok) ∨
      ∃ e, Nftables.run_nft o P s = .error e (s.record (.nft P) (o s.ran (.nft P))) ∧
        o s.ran (.nft P) ≠ .ok := by
  cases h : o s.ran (.nft P) with
  | ok =>
    left
    rw [Nftables.run_nft, bind_of_ok (communicate_ok o h)]
    rfl
  | fail out =>
    right
    rw [Nftables.run_nft, bind_of_ok (communicate_fail o h)]
    exact ⟨_, rfl, nofun⟩
  | noStart =>
    have hc : communicate o (.nft P) s = .error .osError (s.record (.nft P) .noStart) := by
      rw [communicate, bind_of_ok (run_eq o _ s), h]
      rfl
    exact .inr ⟨.osError, by rw [Nftables.run_nft, bind_of_error hc], nofun⟩

theorem Consistent.record {s : Sys} (h : Consistent b s.kernel s.chains) {c : Cmd} {out : Outcome}
    (hout : out ≠ .ok) : Consistent b (s.record c out).kernel (s.record c out).chains := by
  rwa [Sys.record, if_neg hout]

/-- `create_chain`, for the chain of an address that is not registered, keeps the agreement:
    the registry is added to only once the chain and its jump are made. -/
theorem create_chain_keeps {a : Str} (ha : AddrWord a) (s : Sys)
    (h : Consistent b s.kernel s.chains) (hreg : b.chain_for_addr a ∉ s.chains (familyOf a)) :
    Consistent b (stateOf (b.create_chain o a (b.chain_for_addr a) (familyOf a) s)).kernel
      (stateOf (b.create_chain o a (b.chain_for_addr a) (familyOf a) s)).chains := by
  cases b
  · rw [Backend.create_chain, Iptables.create_chain, Iptables.run_ipt]
    rcases check_call_cases o (.ipt (familyOf a) [key "-N", Backend.iptables.chain_for_addr a]) s with
      hN | ⟨e, hN, hNo⟩
    · rw [bind_of_ok hN, Iptables.run_ipt]
      have hNc : Consistent .iptables
          (s.record (.ipt (familyOf a) [key "-N", Backend.iptables.chain_for_addr a]) .ok).kernel
          s.chains :=
        h.exec_ipt fun t => by rw [Table.ipt_new]; exact Table.grows_setChain _ _ _
      rcases check_call_cases o (.ipt (familyOf a) [key "-I", key "QBS-FORWARD", key "-s", a,
        key "-j", Backend.iptables.chain_for_addr a]) _ with hI | ⟨e, hI, hIo⟩
      · rw [bind_of_ok hI, modify_apply]
        refine Consistent.addChain h hreg ?_ (Sys.record_chains _ _ _)
        simp only [Sys.record_ok_kernel, Kernel.exec, Kernel.modify_modify]
        rfl
      · rw [bind_of_error hI]
        exact Consistent.record hNc hIo
    · rw [bind_of_error hN]
      exact h.record hNo
  · rw [Backend.create_chain, Nftables.create_chain]
    rcases run_nft_cases o (Nftables.createProgram (familyOf a) a (Backend.nftables.chain_for_addr a)) s
      with hC | ⟨e, hC, hCo⟩
    · rw [bind_of_ok hC, modify_apply]
      refine Consistent.addChain h hreg ?_ (Sys.record_chains _ _ _)
      rw [Sys.record_ok_kernel, Kernel.exec]
      exact nft_createProgram _ ha.1 ha.2 (Backend.nftables.chain_ne_nil a)
        (Backend.nftables.oneWord_chain ha.2) (Backend.nftables.chain_ne_forward a) _
    · rw [bind_of_error hC]
      exact h.record hCo

/-- The legacy `load_chain` keeps every property that growing one family's table keeps,
    whatever the rules: its commands only empty and append to chains. -/
theorem Iptables.load_chain_grows {J : Kernel → (Family → List Str) → Prop}
    (hJ : ∀ k reg f (g : Table → Table), (k f).Grows (g (k f)) → J k reg → J (k.modify f g) reg)
    (a : Str) (rules : List Dict) :
    Keeps J (Backend.iptables.load_chain o env (Backend.iptables.chain_for_addr a) rules (familyOf a)) := by
  have hF : ∀ t : Table, t.Grows (t.ipt [key "-F", Backend.iptables.chain_for_addr a]) := fun t => by
    rw [Table.ipt_flush _ (Backend.iptables.chain_ne_qbsForward a)]
    exact Table.grows_flush _ _
  refine Keeps.bind_liftExcept fun P _ => Keeps.tryCatch ?_ fun e => ?_
  · refine (Keeps.check_call fun s hs => by exact hJ _ _ _ (fun t => t.ipt _) (hF _) hs).bind
      fun _ => (Keeps.communicate fun s hs =>
        by exact hJ _ _ _ (fun t => t.restore _) (Table.grows_restore _ _) hs).bind fun r => ?_
    cases r
    · exact Keeps.pure _
    · exact Keeps.throw _
  · cases e <;> exact Keeps.throw _

section Shaped

variable {a : Str} (ha : AddrWord a) (henv : env.ResolvesOnly b.ValueChar (familyOf a))
  (hns : ∀ N, dns_addresses env.resolvConf (some (familyOf a)) = .ok N →
    ∀ n ∈ N, Str.Only b.ValueChar n)

include ha henv hns

/-- `load_chain` keeps every property that growing one family's table keeps: a program of
    the nftables shape only flushes and fills its own chain. -/
theorem load_chain_grows {J : Kernel → (Family → List Str) → Prop}
    (hJ : ∀ k reg f (g : Table → Table), (k f).Grows (g (k f)) → J k reg → J (k.modify f g) reg)
    {rules : List Dict} (hrules : ∀ r ∈ rules, r.ValuesOnly b.ValueChar) :
    Keeps J (b.load_chain o env (b.chain_for_addr a) rules (familyOf a)) := by
  cases b
  · exact Iptables.load_chain_grows hJ a rules
  · refine Keeps.bind_liftExcept fun P hP => Keeps.run_nft fun s hs => ?_
    rw [nft_fillsOnly (Backend.nftables.prepare_rules_shaped ha.2 hrules henv hns hP)
      (Backend.nftables.chain_ne_nil a) (Backend.nftables.chain_ne_forward a)]
    exact hJ _ _ _ _ (Table.grows_setChain _ _ _) hs

/-- `load_chain` keeps the agreement. -/
theorem load_chain_keeps {rules : List Dict} (hrules : ∀ r ∈ rules, r.ValuesOnly b.ValueChar) :
    Keeps (Consistent b) (b.load_chain o env (b.chain_for_addr a) rules (familyOf a)) :=
  load_chain_grows ha henv hns (fun _ _ _ _ hg h => h.modify hg) hrules

end Shaped

/-- The legacy `init` keeps every property that emptying `QBS-FORWARD` keeps, and that a
    change of a table leaving its jumps and chains as they were keeps: its other commands end
    `QBS-FORWARD` with `DROP`. -/
theorem Iptables.init_keeps_of {J : Kernel → (Family → List Str) → Prop}
    (hJ : ∀ k reg f, J k reg → J (k.modify f (·.ipt [key "-F", key "QBS-FORWARD"])) reg)
    (hpol : ∀ k reg f (g : Table → Table), (∀ t, (g t).jumps = t.jumps ∧ (g t).chains = t.chains) →
      J k reg → J (k.modify f g) reg) :
    Keeps J (Backend.iptables.init o) := by
  have hfwd : ∀ f, Keeps J (Iptables.run_ipt o f [key "-F", key "QBS-FORWARD"]) := fun f =>
    Keeps.check_call fun s hs => hJ _ _ f hs
  have hdrop : ∀ f, Keeps J (Iptables.run_ipt o f [key "-A", key "QBS-FORWARD", key "-j", key "DROP"]) :=
    fun f => Keeps.check_call fun s hs => hpol _ _ f (·.ipt _) (fun _ => ⟨rfl, rfl⟩) hs
  refine Keeps.tryCatch ((hfwd _).bind fun _ => (hdrop _).bind fun _ => (hfwd _).bind fun _ => hdrop _)
    fun e => ?_
  cases e
  case calledProcessError => exact (Keeps.log_error _).bind fun _ => Keeps.throw _
  all_goals exact Keeps.throw _

/-- `init` keeps the tables without a jump while nothing is registered: the legacy backend
    empties `QBS-FORWARD`, and the nftables program changes no jump. -/
theorem init_keeps : Keeps (fun k reg => reg = (fun _ => []) ∧ ∀ f, (k f).jumps = []) (b.init o) := by
  cases b
  · refine Iptables.init_keeps_of (fun k reg f ⟨hr, hj⟩ => ⟨hr, fun f' => ?_⟩)
      fun k reg f g hg ⟨hr, hj⟩ => ⟨hr, fun f' => ?_⟩
    · by_cases hf : f' = f
      · subst hf
        rw [Kernel.modify_self, Table.ipt_flush_forward]
      · rw [Kernel.modify_ne _ _ hf, hj]
    · by_cases hf : f' = f
      · subst hf
        rw [Kernel.modify_self, (hg _).1, hj]
      · rw [Kernel.modify_ne _ _ hf, hj]
  · exact Keeps.run_nft fun s ⟨hr, hj⟩ => ⟨hr, by simpa [Kernel.exec, nft_initProgram] using hj⟩

end Worker

/-! ## Section 5: Runs of `main` -/

/-- `main` has returned or raised. -/
def Pc.ended : Pc → Bool
  | .exited | .raised _ => true
  | _ => false

namespace Daemon

/-- The invariant of a run: while `main` has neither returned nor raised, the registry
    agrees with the tables; before `init`, nothing is registered. -/
structure Agrees (b : Backend) (d : Daemon) : Prop where
  consistent : d.pc.ended = false → Consistent b d.sys.kernel d.sys.chains
  start : d.pc = .start → d.sys.chains = fun _ => []

theorem after_sys (d : Daemon) (r : EStateM.Result PyExc Sys Unit) (next : Pc)
    (onError : PyExc → Pc) : (d.after r next onError).sys = stateOf r := by
  cases r <;> rfl

theorem Agrees.after {d : Daemon} {r : EStateM.Result PyExc Sys Unit} {next : Pc}
    {onError : PyExc → Pc} (hc : Consistent b (stateOf r).kernel (stateOf r).chains)
    (hnext : next ≠ .start) (hon : ∀ e, onError e ≠ .start) : Agrees b (d.after r next onError) := by
  refine ⟨fun _ => (d.after_sys r next onError) ▸ hc, fun hs => ?_⟩
  cases r
  · exact absurd hs hnext
  · exact absurd hs (hon _)

theorem Agrees.after_ended {d : Daemon} {r : EStateM.Result PyExc Sys Unit} {next : Pc}
    {onError : PyExc → Pc} (hnext : next.ended = true) (hon : ∀ e, (onError e).ended = true) :
    Agrees b (d.after r next onError) := by
  have hend : (d.after r next onError).pc.ended = true := by
    cases r
    · exact hnext
    · exact hon _
  refine ⟨fun h => ?_, fun h => ?_⟩
  · rw [hend] at h
    cases h
  · rw [h] at hend
    cases hend

section Run

variable {o : Oracle} {env : Env} (henv : ∀ f, env.ResolvesOnly b.ValueChar f)
  (hns : ∀ f N, dns_addresses env.resolvConf (some f) = .ok N → ∀ n ∈ N, Str.Only b.ValueChar n)

include henv hns

/-- A step of `main` keeps the invariant when its `handle_addr` call, if it makes one, is
    for a one-word address whose stored values keep the programs' shape. -/
theorem Agrees.main {d : Daemon} (h : Agrees b d)
    (hcall : ∀ p ∈ (nextCall d).toList,
      AddrWord p.1 ∧ (p.2.multiread (targetDir p.1)).ValuesOnly b.ValueChar) :
    Agrees b (step o b env .main d) := by
  rcases d with ⟨pc, sys, db, w, q, tr, wr⟩
  have hhandle : ∀ a, (a, db) ∈ (nextCall ⟨pc, sys, db, w, q, tr, wr⟩).toList →
      Consistent b sys.kernel sys.chains →
      Consistent b (stateOf (handle_addr o b env db a sys)).kernel
        (stateOf (handle_addr o b env db a sys)).chains := fun a hmem =>
    handle_addr_keeps (create_chain_keeps (hcall _ hmem).1)
      (fun _ => load_chain_keeps (hcall _ hmem).1 (henv _) (hns _))
      (fun _ => read_rules_valuesOnly (hcall _ hmem).2) (dropAll_valuesOnly b) sys
  simp only [step]
  cases pc with
  | start =>
    have hr : sys.chains = fun _ => [] := h.start rfl
    have hc := h.consistent rfl
    rw [hr] at hc
    obtain ⟨hr', hj'⟩ := init_keeps (b := b) (o := o) sys ⟨hr, hc.jumps_eq_nil⟩
    refine Agrees.after ?_ nofun fun _ => nofun
    rw [hr']
    exact consistent_empty hj'
  | listing => exact ⟨fun _ => h.consistent rfl, fun hs => absurd hs (sweepOf_ne_start _)⟩
  | sweep todo =>
    cases todo with
    | nil => exact ⟨fun _ => h.consistent rfl, nofun⟩
    | cons a todo =>
      exact Agrees.after (hhandle a (List.mem_singleton_self _) (h.consistent rfl)) nofun fun _ => nofun
  | loop =>
    cases q with
    | nil => exact h
    | cons p q => exact ⟨fun _ => h.consistent rfl, fun hs => absurd hs (watchTarget_ne_start p)⟩
  | handling a =>
    refine Agrees.after (hhandle a (List.mem_singleton_self _) (h.consistent rfl)) nofun fun e => ?_
    split <;> nofun
  | cleanup => exact Agrees.after_ended rfl fun _ => rfl
  | exited => exact h
  | raised e => exact h

omit henv hns in
/-- A writer's operation changes neither the process nor where `main` stands. -/
theorem Agrees.store {d : Daemon} (h : Agrees b d) (op : StoreOp) :
    Agrees b (step o b env (.store op) d) :=
  ⟨h.consistent, h.start⟩

omit henv hns in
/-- A script keeps the agreement of the tables with the registry. -/
theorem Agrees.script {d : Daemon} (h : Agrees b d) (sc : Script) :
    Agrees b (step o b env (.script sc) d) := by
  simp only [step]
  split
  · exact ⟨fun he => (h.consistent he).script sc, h.start⟩
  · exact h

omit henv hns in
/-- The signal moves `main` from `read_watch` to `cleanup`, or leaves it where it is. -/
theorem Agrees.signal {d : Daemon} (h : Agrees b d) : Agrees b (step o b env .signal d) := by
  rcases d with ⟨pc, sys, db, w, q, tr, wr⟩
  cases pc
  case loop =>
    cases q
    · exact ⟨fun _ => h.consistent rfl, nofun⟩
    · exact ⟨h.consistent, h.start⟩
  all_goals exact ⟨h.consistent, h.start⟩

/-- Every move of a run keeps the invariant when every `handle_addr` call of the run is for
    a one-word address whose stored values keep the programs' shape. -/
theorem Agrees.exec : ∀ (ls : List Label) {d : Daemon}, Agrees b d →
    (∀ p ∈ calls o b env ls d,
      AddrWord p.1 ∧ (p.2.multiread (targetDir p.1)).ValuesOnly b.ValueChar) →
      Agrees b (Daemon.exec o b env ls d)
  | [], _, h, _ => h
  | l :: ls, d, h, hcalls => by
    rw [exec_cons]
    cases l with
    | main =>
      rw [calls_cons_main] at hcalls
      exact Agrees.exec ls (h.main henv hns fun p hp => hcalls p (List.mem_append_left _ hp))
        fun p hp => hcalls p (List.mem_append_right _ hp)
    | store op => exact Agrees.exec ls (h.store op) hcalls
    | script sc => exact Agrees.exec ls (h.script sc) hcalls
    | signal => exact Agrees.exec ls h.signal hcalls

end Run

end Daemon

/-- Over every run of `main` from tables without jumps, under any oracle (any command may
    exit with any status or not start) and with either backend, when the resolver and the
    nameservers give addresses of the backend's characters and every `handle_addr` call of
    the run is for a one-word address whose stored values are of those characters: until
    `main` returns or raises, every chain of the registry exists and has exactly one jump to
    it, no jump goes to a chain outside the registry, and every jump sends the traffic of an
    address to that address's own chain, in that address's family. -/
theorem registry_agrees_with_tables (o : Oracle) (b : Backend) (env : Env)
    (henv : ∀ f, env.ResolvesOnly b.ValueChar f)
    (hns : ∀ f N, dns_addresses env.resolvConf (some f) = .ok N → ∀ n ∈ N, Str.Only b.ValueChar n)
    (k₀ : Kernel) (hk₀ : ∀ f, (k₀ f).jumps = []) (db₀ : QubesDB) (ls : List Label)
    (hcalls : ∀ p ∈ Daemon.calls o b env ls (Daemon.boot k₀ db₀),
      AddrWord p.1 ∧ (p.2.multiread (targetDir p.1)).ValuesOnly b.ValueChar) :
    let d := Daemon.exec o b env ls (Daemon.boot k₀ db₀)
    d.pc.ended = false → Consistent b d.sys.kernel d.sys.chains :=
  (Daemon.Agrees.exec henv hns ls ⟨fun _ => consistent_empty hk₀, fun _ => rfl⟩ hcalls).consistent

/-- The oracle under which every program fed to `iptables-restore` or `nft` fails. -/
def Oracle.programsFail : Oracle := Oracle.rejecting fun _ => some (key "error")

/-- The legacy worker of the HTTPS run when every `iptables-restore` fails: each rule set
    and its drop fallback fail to load, and `main` waits with the registry agreeing. -/
theorem registry_agrees_with_tables_restore_fails :
    (∀ p ∈ Daemon.calls Oracle.programsFail .iptables Daemon.noNameservers httpsRun
        (Daemon.boot Kernel.fresh Daemon.acceptStoreSix),
      AddrWord p.1 ∧ (p.2.multiread (targetDir p.1)).ValuesOnly Backend.iptables.ValueChar) ∧
      (Daemon.exec Oracle.programsFail .iptables Daemon.noNameservers httpsRun
        (Daemon.boot Kernel.fresh Daemon.acceptStoreSix)).pc.ended = false ∧
      Consistent .iptables
        (Daemon.exec Oracle.programsFail .iptables Daemon.noNameservers httpsRun
          (Daemon.boot Kernel.fresh Daemon.acceptStoreSix)).sys.kernel
        (Daemon.exec Oracle.programsFail .iptables Daemon.noNameservers httpsRun
          (Daemon.boot Kernel.fresh Daemon.acceptStoreSix)).sys.chains := by
  have hcalls : ∀ p ∈ Daemon.calls Oracle.programsFail .iptables Daemon.noNameservers httpsRun
      (Daemon.boot Kernel.fresh Daemon.acceptStoreSix),
      AddrWord p.1 ∧ (p.2.multiread (targetDir p.1)).ValuesOnly Backend.iptables.ValueChar := by
    decide
  have hend : (Daemon.exec Oracle.programsFail .iptables Daemon.noNameservers httpsRun
      (Daemon.boot Kernel.fresh Daemon.acceptStoreSix)).pc.ended = false := by
    decide
  exact ⟨hcalls, hend, registry_agrees_with_tables Oracle.programsFail .iptables
    Daemon.noNameservers (Daemon.noNameservers_resolvesOnly _) Daemon.noNameservers_dns Kernel.fresh
    (fun _ => rfl) _ httpsRun hcalls hend⟩

end QubesFirewall
