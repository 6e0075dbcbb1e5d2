import QubesFirewall.Exceptions
import QubesFirewall.Forward

/-! # Where `main` goes does not depend on the backend

    `main` never reads the tables: where it goes after a step of the worker depends only on
    whether that step returned or raised.  When the tools accept the service's own programs,
    every step of the worker returns (`handle_addr` catches what its load raises), so two runs
    of `main` on the same moves, one per backend, each from its own tables and with its own
    resolver, stand at the same place after every move, with the same store, watch, queue and
    updates in progress, and make the same `handle_addr` calls, each reading the same store.  Which worker the
    service's `main()` picks, `NftablesWorker` when `nft` is found and `IptablesWorker` else,
    changes what the tables hold, never which rule sets are loaded, or when.
-/

namespace QubesFirewall

namespace Daemon

/-- Two daemons that differ at most in the worker's process. -/
structure SameControl (d₁ d₂ : Daemon) : Prop where
  /-- `main` stands at the same place. -/
  pc : d₁.pc = d₂.pc
  /-- The store holds the same entries. -/
  db : d₁.db = d₂.db
  /-- The watch is registered in both or in neither. -/
  watching : d₁.watching = d₂.watching
  /-- The same events are queued. -/
  queue : d₁.queue = d₂.queue
  /-- `terminate()` has set the flag in both or in neither. -/
  terminate_requested : d₁.terminate_requested = d₂.terminate_requested
  /-- The same addresses have an update in progress. -/
  writing : d₁.writing = d₂.writing

/-- Daemons that differ at most in the process make the same next call. -/
theorem SameControl.nextCall_eq {d₁ d₂ : Daemon} (h : SameControl d₁ d₂) : nextCall d₁ = nextCall d₂ := by
  rw [Daemon.nextCall, Daemon.nextCall, h.pc, h.db]

/-- The protocol of the writers reads only the watch. -/
theorem SameControl.watchedMove {d₁ d₂ : Daemon} (h : SameControl d₁ d₂) (l : Label) :
    WatchedMove l d₁ ↔ WatchedMove l d₂ := by
  cases l with
  | store op => exact and_congr_left' (by rw [h.watching])
  | main | signal | script _ => exact Iff.rfl

/-- The service starts the same whatever tables it finds. -/
theorem SameControl.boot (k₁ k₂ : Kernel) (db : QubesDB) : SameControl (boot k₁ db) (boot k₂ db) :=
  ⟨rfl, rfl, rfl, rfl, rfl, rfl⟩

section Steps

variable {o₁ o₂ : Oracle} {b₁ b₂ : Backend} {env₁ env₂ : Env}

/-- A writer's operation reads only the store, the watch, the queue and the updates in
    progress. -/
theorem SameControl.store {d₁ d₂ : Daemon} (h : SameControl d₁ d₂) (op : StoreOp) :
    SameControl (step o₁ b₁ env₁ (.store op) d₁) (step o₂ b₂ env₂ (.store op) d₂) := by
  obtain ⟨hpc, hdb, hw, hq, ht, hwr⟩ := h
  exact ⟨hpc, by simp only [step, hdb], by simp only [step, hw], by simp only [step, hw, hq], ht,
    by simp only [step, hwr]⟩

/-- A script changes at most the worker's process. -/
theorem SameControl.script {d₁ d₂ : Daemon} (h : SameControl d₁ d₂) (sc : Script) :
    SameControl (step o₁ b₁ env₁ (.script sc) d₁) (step o₂ b₂ env₂ (.script sc) d₂) := by
  simp only [step]
  split <;> split <;> exact ⟨h.pc, h.db, h.watching, h.queue, h.terminate_requested, h.writing⟩

/-- The signal reads only where `main` stands and the queue. -/
theorem SameControl.signal {d₁ d₂ : Daemon} (h : SameControl d₁ d₂) :
    SameControl (step o₁ b₁ env₁ .signal d₁) (step o₂ b₂ env₂ .signal d₂) := by
  obtain ⟨hpc, hdb, hw, hq, _, hwr⟩ := h
  exact ⟨by simp only [step, hpc, hq], hdb, hw, hq, rfl, hwr⟩

/-- Steps of the worker that both return take `main` to the same place. -/
theorem SameControl.after {d₁ d₂ : Daemon} (h : SameControl d₁ d₂)
    {r₁ r₂ : EStateM.Result PyExc Sys Unit} (h₁ : ∃ s, r₁ = .ok () s) (h₂ : ∃ s, r₂ = .ok () s)
    {next : Pc} {onError₁ onError₂ : PyExc → Pc} :
    SameControl (d₁.after r₁ next onError₁) (d₂.after r₂ next onError₂) := by
  obtain ⟨s₁, rfl⟩ := h₁
  obtain ⟨s₂, rfl⟩ := h₂
  exact ⟨rfl, h.db, h.watching, h.queue, h.terminate_requested, h.writing⟩

end Steps

section Rejecting

variable {reject₁ reject₂ : Str → Option Str} {b₁ b₂ : Backend} {env₁ env₂ : Env}
  (hacc₁ : AcceptsOwn b₁ env₁ reject₁) (hacc₂ : AcceptsOwn b₂ env₂ reject₂)
  (hclean₁ : reject₁ Nftables.cleanupProgram = none) (hclean₂ : reject₂ Nftables.cleanupProgram = none)
  (hdns₁ : ∀ f, ∃ N, dns_addresses env₁.resolvConf (some f) = .ok N)
  (hdns₂ : ∀ f, ∃ N, dns_addresses env₂.resolvConf (some f) = .ok N)

include hacc₁ hacc₂ hclean₁ hclean₂ hdns₁ hdns₂

/-- A step of `main` keeps two runs in step when the call it makes, if any, reads rule values
    that split into tokens: every step of the worker returns in both. -/
theorem SameControl.main {d₁ d₂ : Daemon} (h : SameControl d₁ d₂)
    (htok : ∀ p ∈ (nextCall d₁).toList, TokensSplit p.2 p.1) :
    SameControl (step (Oracle.rejecting reject₁) b₁ env₁ .main d₁)
      (step (Oracle.rejecting reject₂) b₂ env₂ .main d₂) := by
  rcases d₁ with ⟨pc, sys₁, db, w, q, t, wr⟩
  rcases d₂ with ⟨pc₂, sys₂, db₂, w₂, q₂, t₂, wr₂⟩
  obtain ⟨hpc, hdb, hw, hq, ht, hwr⟩ := h
  dsimp only at hpc hdb hw hq ht hwr
  subst hpc hdb hw hq ht hwr
  have hsame : SameControl ⟨pc, sys₁, db, w, q, t, wr⟩ ⟨pc, sys₂, db, w, q, t, wr⟩ :=
    ⟨rfl, rfl, rfl, rfl, rfl, rfl⟩
  have hhandle : ∀ a, (a, db) ∈ (nextCall ⟨pc, sys₁, db, w, q, t, wr⟩).toList →
      (∃ s, handle_addr (Oracle.rejecting reject₁) b₁ env₁ db a sys₁ = .ok () s) ∧
        ∃ s, handle_addr (Oracle.rejecting reject₂) b₂ env₂ db a sys₂ = .ok () s :=
    fun a hmem => ⟨handle_addr_ok hacc₁ (hdns₁ _) (htok _ hmem) sys₁,
      handle_addr_ok hacc₂ (hdns₂ _) (htok _ hmem) sys₂⟩
  simp only [step]
  cases pc with
  | start =>
    exact SameControl.after ⟨rfl, rfl, rfl, rfl, rfl, rfl⟩ (Backend.init_ok hacc₁.init sys₁)
      (Backend.init_ok hacc₂.init sys₂)
  | sweep todo =>
    cases todo with
    | nil => exact ⟨rfl, rfl, rfl, rfl, rfl, rfl⟩
    | cons a todo =>
      obtain ⟨h₁, h₂⟩ := hhandle a (List.mem_singleton_self _)
      exact hsame.after h₁ h₂
  | loop =>
    cases q with
    | nil => exact hsame
    | cons p q => exact ⟨rfl, rfl, rfl, rfl, rfl, rfl⟩
  | handling a =>
    obtain ⟨h₁, h₂⟩ := hhandle a (List.mem_singleton_self _)
    exact hsame.after h₁ h₂
  | cleanup => exact hsame.after (Backend.cleanup_ok hclean₁ sys₁) (Backend.cleanup_ok hclean₂ sys₂)
  | listing | exited | raised e => exact ⟨rfl, rfl, rfl, rfl, rfl, rfl⟩

/-- Two runs on the same moves stay in step, make the same calls, and keep to the protocol of
    the writers alike, when every call of the first reads rule values that split into
    tokens. -/
theorem SameControl.exec : ∀ (ls : List Label) {d₁ d₂ : Daemon}, SameControl d₁ d₂ →
    (∀ p ∈ calls (Oracle.rejecting reject₁) b₁ env₁ ls d₁, TokensSplit p.2 p.1) →
    SameControl (Daemon.exec (Oracle.rejecting reject₁) b₁ env₁ ls d₁)
        (Daemon.exec (Oracle.rejecting reject₂) b₂ env₂ ls d₂) ∧
      calls (Oracle.rejecting reject₁) b₁ env₁ ls d₁ = calls (Oracle.rejecting reject₂) b₂ env₂ ls d₂ ∧
      (WritesWatched (Oracle.rejecting reject₁) b₁ env₁ ls d₁ ↔
        WritesWatched (Oracle.rejecting reject₂) b₂ env₂ ls d₂)
  | [], _, _, h, _ => ⟨h, rfl, Iff.rfl⟩
  | l :: ls, d₁, d₂, h, htok => by
    rw [exec_cons, exec_cons]
    cases l with
    | main =>
      rw [calls_cons_main] at htok
      obtain ⟨hs, hc, hw⟩ := SameControl.exec ls
        (h.main hacc₁ hacc₂ hclean₁ hclean₂ hdns₁ hdns₂ fun p hp => htok p (List.mem_append_left _ hp))
        fun p hp => htok p (List.mem_append_right _ hp)
      exact ⟨hs, by rw [calls_cons_main, calls_cons_main, hc, h.nextCall_eq],
        and_congr (h.watchedMove _) hw⟩
    | store op =>
      obtain ⟨hs, hc, hw⟩ := SameControl.exec ls (h.store op) htok
      exact ⟨hs, by rw [calls_cons_store, calls_cons_store, hc], and_congr (h.watchedMove _) hw⟩
    | script sc =>
      obtain ⟨hs, hc, hw⟩ := SameControl.exec ls (h.script sc) htok
      exact ⟨hs, by rw [calls_cons_script, calls_cons_script, hc], and_congr (h.watchedMove _) hw⟩
    | signal =>
      obtain ⟨hs, hc, hw⟩ := SameControl.exec ls h.signal htok
      exact ⟨hs, by rw [calls_cons_signal, calls_cons_signal, hc], and_congr (h.watchedMove _) hw⟩

end Rejecting

end Daemon

/-! ## The two translations refuse the same rule sets

    Both translations make the same checks on a rule, in the same order: the options
    (`checkRule`), then the resolution of `dsthost`; the lookup of the action cannot fail on
    a rule `read_rules` returns.  So they raise the same exception on the same rule set, and
    `handle_addr` takes the drop fallback under both or under neither. -/

section Refusals

variable {env : Env} {dns : List Str} {f : Family} {rule : Dict}

theorem Iptables.ruleLines_eq_error (hact : rule.contains (key "action") = true) (c : Str) (e : PyExc) :
    Iptables.ruleLines env dns c f rule = .error e ↔
      (checkRule rule f >>= fun _ => Iptables.dsthostsOf env rule f) = .error e := by
  obtain ⟨v, hv⟩ := getItem_ok hact
  unfold Iptables.ruleLines
  conv_lhs => rw [bind_eq_error]
  conv_rhs => rw [bind_eq_error]
  refine or_congr_right (exists_congr fun _ => and_congr_right fun _ => ?_)
  rw [bind_eq_error]
  refine ⟨fun h => h.elim id fun ⟨ds, _, h⟩ => absurd h ?_, .inl⟩
  split
  · nofun
  · obtain ⟨ys, hys⟩ := mapM_ok_of_forall (l := loopPairs _)
      (g := fun pd => do
        let action ← rule.getItem (key "action")
        pure (iptLine c pd.2 pd.1 _ (rule.get (key "icmptype")) action))
      fun pd _ => ⟨_, by rw [hv]; rfl⟩
    rw [bind_eq_error]
    rintro (h | ⟨_, _, h⟩)
    · rw [hys] at h; cases h
    · cases h

theorem Nftables.ruleStatements_eq_error (hact : rule.contains (key "action") = true) (e : PyExc) :
    Nftables.ruleStatements env dns f rule = .error e ↔
      (checkRule rule f >>= fun _ => Nftables.daddrClause env rule f) = .error e := by
  unfold Nftables.ruleStatements
  conv_lhs => rw [bind_eq_error]
  conv_rhs => rw [bind_eq_error]
  refine or_congr_right (exists_congr fun _ => and_congr_right fun _ => ?_)
  rw [bind_eq_error]
  refine ⟨fun h => h.elim id fun ⟨ds, _, h⟩ => absurd h ?_, .inl⟩
  dsimp only
  split_ifs <;> first | exact emit_ne_error hact | exact fun h => by cases h

theorem dsthostsOf_eq_error_iff (e : PyExc) :
    Iptables.dsthostsOf env rule f = .error e ↔ Nftables.daddrClause env rule f = .error e := by
  unfold Iptables.dsthostsOf Nftables.daddrClause
  cases rule.get (key "dst4") with
  | some _ => exact ⟨fun h => (by cases h), fun h => (by cases h)⟩
  | none =>
    cases rule.get (key "dst6") with
    | some _ => exact ⟨fun h => (by cases h), fun h => (by cases h)⟩
    | none =>
      cases rule.get (key "dsthost") with
      | none => exact ⟨fun h => (by cases h), fun h => (by cases h)⟩
      | some host =>
        dsimp only
        cases resolveHost env host f <;> exact ⟨fun h => (by cases h <;> rfl), fun h => (by cases h <;> rfl)⟩

/-- Two loops whose bodies raise the same exceptions on every element raise the same
    exceptions. -/
theorem mapM_eq_error_congr {α ε β₁ β₂ : Type} {g₁ : α → Except ε β₁} {g₂ : α → Except ε β₂} :
    ∀ {l : List α}, (∀ x ∈ l, ∀ e, g₁ x = .error e ↔ g₂ x = .error e) →
      ∀ e, l.mapM g₁ = .error e ↔ l.mapM g₂ = .error e
  | [], _, _ => ⟨fun h => (by cases h), fun h => (by cases h)⟩
  | x :: l, h, e => by
    have ht := mapM_eq_error_congr (l := l) (fun y hy => h y (List.mem_cons_of_mem x hy)) e
    have hx := h x (List.mem_cons_self x l)
    rw [List.mapM_cons, List.mapM_cons]
    cases h₁ : g₁ x with
    | error e₁ =>
      rw [(hx e₁).1 h₁]
      simp only [bind, Except.bind, Except.error.injEq]
    | ok y₁ =>
      cases h₂ : g₂ x with
      | error e₂ => exact absurd ((hx e₂).2 h₂) (by rw [h₁]; nofun)
      | ok y₂ =>
        simp only [bind, Except.bind]
        cases hm₁ : l.mapM g₁ <;> cases hm₂ : l.mapM g₂ <;> rw [hm₁, hm₂] at ht <;>
          simp only [pure, Except.pure, Except.error.injEq, reduceCtorEq, iff_false, false_iff,
            iff_self] at ht ⊢ <;> exact ht

/-- The two translations of rules that have an action raise the same exceptions: those of
    reading the nameservers, then those of the first rule whose checks or `dsthost` fail. -/
theorem prepare_rules_eq_error {rules : List Dict}
    (hact : ∀ r ∈ rules, r.contains (key "action") = true) (c₁ c₂ : Str) (e : PyExc) :
    Backend.iptables.prepare_rules env c₁ rules f = .error e ↔
      Backend.nftables.prepare_rules env c₂ rules f = .error e := by
  have hrule : ∀ dns, ∀ r ∈ rules, ∀ e,
      Iptables.ruleLines env dns c₁ f r = .error e ↔ Nftables.ruleStatements env dns f r = .error e := by
    intro dns r hr e
    rw [Iptables.ruleLines_eq_error (hact r hr), Nftables.ruleStatements_eq_error (hact r hr),
      bind_eq_error, bind_eq_error]
    exact or_congr_right (exists_congr fun _ => and_congr_right fun _ => dsthostsOf_eq_error_iff e)
  change Iptables.prepare_rules env c₁ rules f = .error e ↔ Nftables.prepare_rules env c₂ rules f = .error e
  unfold Iptables.prepare_rules Nftables.prepare_rules
  conv_lhs => rw [bind_eq_error]
  conv_rhs => rw [bind_eq_error]
  refine or_congr_right (exists_congr fun dns => and_congr_right fun _ => ?_)
  conv_lhs => rw [bind_eq_error]
  conv_rhs => rw [bind_eq_error]
  simp only [pure, Except.pure, reduceCtorEq, and_false, exists_false, or_false]
  exact mapM_eq_error_congr (hrule dns) e

section Agree

variable {inPrefix : Str → Str → Bool} {N : List Str} {db : QubesDB} {a : Str}

/-- With tools that take every program, the two backends read the same verdict off the store
    for a one-word address literal, in their own words, when the rules stored for it have the
    shape both translations keep the meaning of. -/
theorem storeVerdict_backends (ha : AddrWord a) (hlit : (hostOf a).isSome)
    (henv₁ : env.ResolvesOnly Backend.iptables.WordChar (familyOf a))
    (henv₂ : env.ResolvesOnly Backend.nftables.WordChar (familyOf a))
    (hfull : FullHostPrefixes inPrefix (familyOf a))
    (hN : dns_addresses env.resolvConf (some (familyOf a)) = .ok N)
    (hN₁ : ∀ n ∈ N, Str.Only Backend.iptables.WordChar n)
    (hN₂ : ∀ n ∈ N, Str.Only Backend.nftables.WordChar n)
    (hlaw : ∀ rules, read_rules db a = .ok rules → ∀ r ∈ rules,
      Backend.iptables.LawfulRule inPrefix (familyOf a) N r ∧
        Backend.nftables.LawfulRule inPrefix (familyOf a) N r)
    (pkt : Packet (familyOf a)) :
    storeVerdict .iptables env (fun _ => none) inPrefix db a pkt =
      (storeVerdict .nftables env (fun _ => none) inPrefix db a pkt).map Str.upper := by
  have hfb : ∀ b : Backend, ((b.fallbackRules env (b.chain_for_addr a) (familyOf a)).findSome?
      (b.ruleVerdict inPrefix pkt)).or (some (b.verdictOf (key "drop"))) = some (b.verdictOf (key "drop")) :=
    fun b => b.fallback_forward (b.oneWord_chain ha.2) pkt
  unfold storeVerdict
  split_ifs
  · rfl
  unfold expected
  cases hr : read_rules db a with
  | error e =>
    simp only [bind, Except.bind]
    rw [hfb, hfb]
    rfl
  | ok rules =>
    simp only [bind, Except.bind]
    have hagree : ∀ e, Backend.iptables.prepare_rules env (Backend.iptables.chain_for_addr a) rules
        (familyOf a) = .error e ↔ Backend.nftables.prepare_rules env (Backend.nftables.chain_for_addr a)
          rules (familyOf a) = .error e :=
      prepare_rules_eq_error (read_rules_contains hr) _ _
    cases hP₁ : Backend.iptables.prepare_rules env (Backend.iptables.chain_for_addr a) rules (familyOf a) with
    | error e =>
      rw [(hagree e).1 hP₁]
      simp only
      rw [hfb, hfb]
      rfl
    | ok P₁ =>
      cases hP₂ : Backend.nftables.prepare_rules env (Backend.nftables.chain_for_addr a) rules
          (familyOf a) with
      | error e => exact absurd ((hagree e).2 hP₂) (by rw [hP₁]; nofun)
      | ok P₂ =>
        simp only [ite_true]
        rw [Backend.chainRules_verdict hfull hN hN₁ (fun r hr' => (hlaw rules hr r hr').1) hlit henv₁ hP₁ pkt,
          Backend.chainRules_verdict hfull hN hN₂ (fun r hr' => (hlaw rules hr r hr').2) hlit henv₂ hP₂ pkt]
        cases firstMatch inPrefix env N rules pkt <;> rfl

end Agree

end Refusals

/-- Over every run of `main`, whatever the writers write, whatever the scripts do and whenever
    the signal comes: two workers, of either backends, from any tables and with any resolvers
    that read the nameservers of both families, whose tools run every command and take the
    programs of `init`, `create_chain`, the drop fallback and `cleanup`, stand at the same
    place after every move, with the same store, watch, queue, flag and updates in progress,
    and make the same `handle_addr` calls, each reading the same store, when every rule value
    a call reads splits into `key=value` tokens. -/
theorem main_ignores_backend {reject₁ reject₂ : Str → Option Str} {b₁ b₂ : Backend}
    {env₁ env₂ : Env} (hacc₁ : AcceptsOwn b₁ env₁ reject₁) (hacc₂ : AcceptsOwn b₂ env₂ reject₂)
    (hclean₁ : reject₁ Nftables.cleanupProgram = none) (hclean₂ : reject₂ Nftables.cleanupProgram = none)
    (hdns₁ : ∀ f, ∃ N, dns_addresses env₁.resolvConf (some f) = .ok N)
    (hdns₂ : ∀ f, ∃ N, dns_addresses env₂.resolvConf (some f) = .ok N)
    (k₁ k₂ : Kernel) (db₀ : QubesDB) (ls : List Label)
    (htok : ∀ p ∈ Daemon.calls (Oracle.rejecting reject₁) b₁ env₁ ls (Daemon.boot k₁ db₀),
      TokensSplit p.2 p.1) :
    Daemon.SameControl (Daemon.exec (Oracle.rejecting reject₁) b₁ env₁ ls (Daemon.boot k₁ db₀))
        (Daemon.exec (Oracle.rejecting reject₂) b₂ env₂ ls (Daemon.boot k₂ db₀)) ∧
      Daemon.calls (Oracle.rejecting reject₁) b₁ env₁ ls (Daemon.boot k₁ db₀) =
        Daemon.calls (Oracle.rejecting reject₂) b₂ env₂ ls (Daemon.boot k₂ db₀) :=
  let h := Daemon.SameControl.exec hacc₁ hacc₂ hclean₁ hclean₂ hdns₁ hdns₂ ls
    (Daemon.SameControl.boot k₁ k₂ db₀) htok
  ⟨h.1, h.2.1⟩

/-- The legacy worker and the nftables worker of the HTTPS run, the first from tables with
    the chain `custom`, stay in step. -/
theorem main_ignores_backend_https :
    AcceptsOwn .iptables Daemon.noNameservers (fun _ => none) ∧
      AcceptsOwn .nftables Daemon.noNameservers (fun _ => none) ∧
      (∀ f, ∃ N, dns_addresses Daemon.noNameservers.resolvConf (some f) = .ok N) ∧
      (∀ p ∈ Daemon.calls (Oracle.rejecting fun _ => none) .iptables Daemon.noNameservers httpsRun
        (Daemon.boot Kernel.fresh Daemon.acceptStoreSix), TokensSplit p.2 p.1) ∧
      Daemon.SameControl
        (Daemon.exec (Oracle.rejecting fun _ => none) .iptables Daemon.noNameservers httpsRun
          (Daemon.boot Kernel.fresh Daemon.acceptStoreSix))
        (Daemon.exec (Oracle.rejecting fun _ => none) .nftables Daemon.noNameservers httpsRun
          (Daemon.boot Kernel.fresh Daemon.acceptStoreSix)) ∧
      Daemon.calls (Oracle.rejecting fun _ => none) .iptables Daemon.noNameservers httpsRun
          (Daemon.boot Kernel.fresh Daemon.acceptStoreSix) =
        Daemon.calls (Oracle.rejecting fun _ => none) .nftables Daemon.noNameservers httpsRun
          (Daemon.boot Kernel.fresh Daemon.acceptStoreSix) := by
  have hacc₁ : AcceptsOwn .iptables Daemon.noNameservers (fun _ => none) :=
    ⟨rfl, fun _ _ _ => rfl, fun _ _ _ _ => rfl⟩
  have hacc₂ : AcceptsOwn .nftables Daemon.noNameservers (fun _ => none) :=
    ⟨rfl, fun _ _ _ => rfl, fun _ _ _ _ => rfl⟩
  have hdns : ∀ f, ∃ N, dns_addresses Daemon.noNameservers.resolvConf (some f) = .ok N :=
    fun f => ⟨[], by cases f <;> rfl⟩
  have htok : ∀ p ∈ Daemon.calls (Oracle.rejecting fun _ => none) .iptables Daemon.noNameservers
      httpsRun (Daemon.boot Kernel.fresh Daemon.acceptStoreSix), TokensSplit p.2 p.1 := by
    decide
  exact ⟨hacc₁, hacc₂, hdns, htok, main_ignores_backend hacc₁ hacc₂ rfl rfl hdns hdns _ _ _ _ htok⟩

/-- The program of the legacy worker for the HTTPS rule set, policy `drop`, of `10.137.0.5`. -/
def httpsRestoreInput : Str :=
  key "*filter\n-A qbs-10-137-0-5 -p tcp --dport 443:443 -j ACCEPT\n-A qbs-10-137-0-5 -j DROP\nCOMMIT\n"

end QubesFirewall
