import QubesFirewall.Registry

/-! # The worker changes only the chains of the addresses it handles

    The tables the worker writes to hold more than its own chains.  A `handle_addr` call for
    `addr` makes, empties and fills only the chain of `addr` in the family of `addr`, and
    `init` changes no chain but the forward chain, whose jumps and final verdict the tables
    keep apart from the other chains: the legacy commands name the chain, `iptables-restore
    -n` is fed only `-A` lines for it, and the nftables programs flush and fill only its
    block.  This holds whatever the commands do, since a command that fails changes nothing.
    The scripts `main` starts before the initial load may change any chain the worker does
    not own, that is any chain whose name does not start with `qbs-`.

    So over every run of `main`, under any oracle and with either backend, when the
    handled addresses are one word and their stored values keep the programs' shape: until
    `main` returns or raises, every chain other than the forward chain and the chains of the
    addresses `main` has handled, each in its family, holds what it held when the service
    started, if no script has changed the tables, and every such chain named `qbs-…`
    whatever the scripts did.
-/

namespace QubesFirewall

/-! ## Section 1: Changes of one chain -/

/-- `k` holds what `k₀` holds in every chain but chain `c` of family `f`. -/
def SameOutside (f : Family) (c : Str) (k₀ k : Kernel) : Prop :=
  ∀ f' c', (f' ≠ f ∨ c' ≠ c) → (k f').chains c' = (k₀ f').chains c'

theorem SameOutside.modify {f : Family} {c : Str} {k₀ k : Kernel} (h : SameOutside f c k₀ k)
    {g : Table → Table} (hg : ∀ c', c' ≠ c → (g (k f)).chains c' = (k f).chains c') :
    SameOutside f c k₀ (k.modify f g) := by
  intro f' c' hne
  by_cases hf : f' = f
  · subst hf
    rw [Kernel.modify_self, hg c' (hne.resolve_left (not_not.2 rfl))]
    exact h f' c' hne
  · rw [Kernel.modify_ne _ _ hf]
    exact h f' c' hne

section Legacy

variable {c c' : Str}

theorem foldl_restoreLine_chains_ne (hc : ' ' ∉ c) (hne : c' ≠ c) :
    ∀ {body : List Str} {t : Table},
      (∀ l ∈ body, Str.startswith l (key "-A " ++ c ++ [' ']) = true) →
        (body.foldl Table.restoreLine t).chains c' = t.chains c'
  | [], _, _ => rfl
  | l :: body, t, hb => by
    obtain ⟨rest, hl⟩ := split_appendLine hc (hb l (List.mem_cons_self _ _))
    rw [List.foldl_cons, Table.restoreLine_append hl,
      foldl_restoreLine_chains_ne hc hne fun l' h' => hb l' (List.mem_cons_of_mem _ h'),
      Table.append, Table.setChain_ne _ _ hne]

/-- A program that only appends to `c` leaves every other chain as it was, whether or not
    `c` exists. -/
theorem restore_chains_ne {P : Str} (h : AppendsOnlyTo c P) (hne : c' ≠ c) (t : Table) :
    (t.restore P).chains c' = t.chains c' := by
  obtain ⟨hw, body, hs, hb⟩ := h
  rw [Table.restore, hs, List.foldl_cons,
    Table.restoreLine_single (show Str.split (key "*filter") ' ' = [key "*filter"] from rfl),
    List.foldl_append, List.foldl_cons, List.foldl_cons, List.foldl_nil,
    Table.restoreLine_single (show Str.split (key "COMMIT") ' ' = [key "COMMIT"] from rfl),
    Table.restoreLine_single (show Str.split ([] : Str) ' ' = [[]] from rfl)]
  exact foldl_restoreLine_chains_ne hw.no_space hne hb

end Legacy

/-! ## Section 2: `handle_addr` changes only the chain of its address -/

section Worker

variable {o : Oracle} {b : Backend} {env : Env} (k₀ : Kernel) {a : Str} (ha : AddrWord a)

include ha

theorem create_chain_local :
    Keeps (fun k _ => SameOutside (familyOf a) (b.chain_for_addr a) k₀ k)
      (b.create_chain o a (b.chain_for_addr a) (familyOf a)) := by
  cases b
  · refine (Keeps.check_call fun s hs => ?_).bind fun _ =>
      (Keeps.check_call fun s hs => ?_).bind fun _ => fun s hs => hs
    · exact hs.modify (g := fun t => t.ipt [key "-N", _]) fun c' hc' => by
        dsimp only
        rw [Table.ipt_new]
        exact Table.setChain_ne _ _ hc'
    · exact hs.modify (g := fun t => t.ipt [key "-I", key "QBS-FORWARD", key "-s", a, key "-j", _])
        fun _ _ => rfl
  · refine (Keeps.run_nft fun s hs => ?_).bind fun _ => fun s hs => hs
    rw [nft_createProgram _ ha.1 ha.2 (Backend.nftables.chain_ne_nil a)
      (Backend.nftables.oneWord_chain ha.2) (Backend.nftables.chain_ne_forward a)]
    exact hs.modify fun c' hc' => Backend.nftables.makeChain_chains_ne _ hc'

variable (henv : env.ResolvesOnly b.ValueChar (familyOf a))
  (hns : ∀ N, dns_addresses env.resolvConf (some (familyOf a)) = .ok N →
    ∀ n ∈ N, Str.Only b.ValueChar n)

include henv hns

theorem load_chain_local {rules : List Dict} (hrules : ∀ r ∈ rules, r.ValuesOnly b.ValueChar) :
    Keeps (fun k _ => SameOutside (familyOf a) (b.chain_for_addr a) k₀ k)
      (b.load_chain o env (b.chain_for_addr a) rules (familyOf a)) := by
  cases b
  · refine Keeps.bind_liftExcept fun P hP => Keeps.tryCatch ?_ fun e => ?_
    · have hshape := Backend.iptables.prepare_rules_shaped ha.2 hrules henv hns hP
      refine (Keeps.check_call fun s hs => ?_).bind fun _ =>
        (Keeps.communicate fun s hs => ?_).bind fun r => ?_
      · exact hs.modify (g := fun t => t.ipt [key "-F", _]) fun c' hc' => by
          dsimp only
          rw [Table.ipt_flush _ (Backend.iptables.chain_ne_qbsForward a), Table.flush]
          exact Table.setChain_ne _ _ hc'
      · exact hs.modify (g := fun t => t.restore P) fun c' hc' => restore_chains_ne hshape hc' _
      · cases r
        · exact Keeps.pure _
        · exact Keeps.throw _
    · cases e <;> exact Keeps.throw _
  · refine Keeps.bind_liftExcept fun P hP => Keeps.run_nft fun s hs => ?_
    rw [nft_fillsOnly (Backend.nftables.prepare_rules_shaped ha.2 hrules henv hns hP)
      (Backend.nftables.chain_ne_nil a) (Backend.nftables.chain_ne_forward a)]
    exact hs.modify fun c' hc' => Table.setChain_ne _ _ hc'

/-- A `handle_addr` call for `addr`, whether it returns or raises, changes no chain but
    the chain of `addr` in the family of `addr`. -/
theorem handle_addr_local {db : QubesDB}
    (hdb : (db.multiread (targetDir a)).ValuesOnly b.ValueChar) :
    Keeps (fun k _ => SameOutside (familyOf a) (b.chain_for_addr a) k₀ k)
      (handle_addr o b env db a) :=
  handle_addr_keeps (fun s hs _ => create_chain_local k₀ ha s hs)
    (fun _ => load_chain_local k₀ ha henv hns) (fun _ => read_rules_valuesOnly hdb)
    (dropAll_valuesOnly b)

end Worker

/-! ## Section 3: Runs of `main`

    A property of the tables indexed by the calls made so far holds over a run when an `init`
    that returns keeps it (one that raises ends the run), each `handle_addr` call keeps it
    with the call added, and each script of the run keeps it: `main`'s other steps leave the
    tables alone, and `cleanup` ends the run. -/

namespace Daemon

/-- `Q` holds of the tables after the calls `H` while `main` has neither returned nor
    raised. -/
def Holds (Q : List (Str × QubesDB) → Kernel → Prop) (H : List (Str × QubesDB)) (d : Daemon) :
    Prop :=
  d.pc.ended = false → Q H d.sys.kernel

section Run

variable {o : Oracle} {b : Backend} {env : Env} {Q : List (Str × QubesDB) → Kernel → Prop}
  {H : List (Str × QubesDB)}

theorem Holds.after {d : Daemon} {r : EStateM.Result PyExc Sys Unit} {next : Pc}
    {onError : PyExc → Pc} (hc : Q H (stateOf r).kernel) : Holds Q H (d.after r next onError) :=
  fun _ => (d.after_sys r next onError) ▸ hc

/-- A step after which `main` raises on an exception needs `Q` only when it returns. -/
theorem Holds.after_ok {d : Daemon} {r : EStateM.Result PyExc Sys Unit} {next : Pc}
    (hc : ∀ u s, r = .ok u s → Q H s.kernel) : Holds Q H (d.after r next .raised) := by
  cases r with
  | ok u s => exact fun _ => hc u s rfl
  | error e s => exact nofun

/-- A writer's operation changes neither the process nor where `main` stands. -/
theorem Holds.store {d : Daemon} (h : Holds Q H d) (op : StoreOp) :
    Holds Q H (step o b env (.store op) d) :=
  h

/-- A script that keeps `Q` keeps it when it takes effect. -/
theorem Holds.script {d : Daemon} (h : Holds Q H d) {sc : Script}
    (hsc : ∀ H k, Q H k → Q H (sc.run k)) : Holds Q H (step o b env (.script sc) d) := by
  simp only [step]
  split
  · exact fun he => hsc H _ (h he)
  · exact h

/-- The signal moves `main` from `read_watch` to `cleanup`, or leaves it where it is. -/
theorem Holds.signal {d : Daemon} (h : Holds Q H d) : Holds Q H (step o b env .signal d) := by
  rcases d with ⟨pc, sys, db, w, q, tr, wr⟩
  cases pc
  case loop =>
    cases q
    · exact fun _ => h rfl
    · exact h
  all_goals exact h

variable {C : Str × QubesDB → Prop}
  (hinit : ∀ H (s s' : Sys) u, Q H s.kernel → b.init o s = .ok u s' → Q H s'.kernel)
  (hcall : ∀ H p, C p → ∀ s : Sys, Q H s.kernel →
    Q (H ++ [p]) (stateOf (handle_addr o b env p.2 p.1 s)).kernel)

include hinit hcall

/-- A step of `main` keeps `Q`, with its call, if it makes one, added. -/
theorem Holds.main {d : Daemon} (h : Holds Q H d) (hc : ∀ p ∈ (nextCall d).toList, C p) :
    Holds Q (H ++ (nextCall d).toList) (step o b env .main d) := by
  rcases d with ⟨pc, sys, db, w, q, tr, wr⟩
  simp only [step]
  cases pc with
  | start =>
    simp only [nextCall, Option.toList_none, List.append_nil]
    exact Holds.after_ok fun u s' hi => hinit H sys s' u (h rfl) hi
  | listing =>
    simp only [nextCall, Option.toList_none, List.append_nil]
    exact fun _ => h rfl
  | sweep todo =>
    cases todo with
    | nil =>
      simp only [nextCall, Option.toList_none, List.append_nil]
      exact fun _ => h rfl
    | cons a todo => exact Holds.after (hcall H _ (hc _ (List.mem_singleton_self _)) sys (h rfl))
  | loop =>
    simp only [nextCall, Option.toList_none, List.append_nil]
    cases q with
    | nil => exact h
    | cons p q => exact fun _ => h rfl
  | handling a => exact Holds.after (hcall H _ (hc _ (List.mem_singleton_self _)) sys (h rfl))
  | cleanup =>
    simp only [nextCall, Option.toList_none, List.append_nil]
    intro hend
    cases hr : b.cleanup o sys <;> simp only [mainStep, Option.getD_some, after, hr] at hend <;>
      cases hend
  | exited | raised _ =>
    simp only [nextCall, Option.toList_none, List.append_nil]
    exact h

/-- Every move of a run keeps `Q`, with the calls of `main` added, when every call meets
    `C` and every script of the run keeps `Q`. -/
theorem Holds.exec : ∀ (ls : List Label) {H : List (Str × QubesDB)} {d : Daemon},
    Holds Q H d → (∀ p ∈ calls o b env ls d, C p) →
      (∀ sc, .script sc ∈ ls → ∀ H k, Q H k → Q H (sc.run k)) →
      Holds Q (H ++ calls o b env ls d) (Daemon.exec o b env ls d)
  | [], H, d, h, _, _ => by rw [calls, List.append_nil]; exact h
  | l :: ls, H, d, h, hcalls, hsc => by
    have hsc' := fun sc (hm : .script sc ∈ ls) => hsc sc (List.mem_cons_of_mem l hm)
    rw [exec_cons]
    cases l with
    | main =>
      rw [calls_cons_main] at hcalls ⊢
      rw [← List.append_assoc]
      exact Holds.exec ls (h.main hinit hcall fun p hp => hcalls p (List.mem_append_left _ hp))
        (fun p hp => hcalls p (List.mem_append_right _ hp)) hsc'
    | store op =>
      rw [calls_cons_store] at hcalls ⊢
      exact Holds.exec ls (h.store op) hcalls hsc'
    | script sc =>
      rw [calls_cons_script] at hcalls ⊢
      exact Holds.exec ls (h.script (hsc sc (List.mem_cons_self _ _))) hcalls hsc'
    | signal =>
      rw [calls_cons_signal] at hcalls ⊢
      exact Holds.exec ls h.signal hcalls hsc'

end Run

end Daemon

/-- `init` changes no chain: the legacy backend empties `QBS-FORWARD` of its jumps only, and
    the nftables program makes no chain the tables lack. -/
theorem init_chains {b : Backend} (o : Oracle) (P : (Family → Str → Option (List Str)) → Prop) :
    Keeps (fun k _ => P fun f => (k f).chains) (b.init o) := by
  have hkeep : ∀ {k : Kernel} {f : Family} {g : Table → Table}, (g (k f)).chains = (k f).chains →
      P (fun f' => (k f').chains) → P fun f' => (k.modify f g f').chains := by
    intro k f g hg h
    convert h using 2 with f'
    by_cases hf : f' = f
    · subst hf
      rw [Kernel.modify_self, hg]
    · rw [Kernel.modify_ne _ _ hf]
  cases b
  · refine Keeps.tryCatch ?_ fun e => ?_
    · refine (Keeps.check_call fun s hs => hkeep rfl hs).bind fun _ =>
        (Keeps.check_call fun s hs => hkeep rfl hs).bind fun _ =>
          (Keeps.check_call fun s hs => hkeep rfl hs).bind fun _ =>
            Keeps.check_call fun s hs => hkeep rfl hs
    · cases e
      case calledProcessError => exact (Keeps.log_error _).bind fun _ => Keeps.throw _
      all_goals exact Keeps.throw _
  · exact Keeps.run_nft fun s hs => by rwa [nft_initProgram]

/-- The name of the backend's forward chain, whose jumps and final verdict the tables keep
    apart from the other chains. -/
def Backend.forwardChain : Backend → Str
  | .iptables => Table.qbsForward
  | .nftables => key "forward"

/-- Whether the move is a script's. -/
def Label.isScript : Label → Bool
  | .script _ => true
  | _ => false

/-- Every chain `c` with `K c`, but those of the addresses `A`, each in its family, holds
    what it held in `k₀`. -/
def Untouched (b : Backend) (k₀ : Kernel) (K : Str → Prop) (A : List Str) (k : Kernel) : Prop :=
  ∀ f c, K c → (∀ a ∈ A, familyOf a = f → b.chain_for_addr a ≠ c) → (k f).chains c = (k₀ f).chains c

/-- A `handle_addr` call for `a` keeps every chain but its own as it was. -/
theorem Untouched.handle {b : Backend} {k₀ k k' : Kernel} {K : Str → Prop} {A : List Str} {a : Str}
    (h : Untouched b k₀ K A k) (hloc : SameOutside (familyOf a) (b.chain_for_addr a) k k') :
    Untouched b k₀ K (A ++ [a]) k' := by
  intro f c hK hc
  have hne : f ≠ familyOf a ∨ c ≠ b.chain_for_addr a := by
    by_cases hf : f = familyOf a
    · exact .inr fun hc' => hc a (List.mem_append_right _ (List.mem_singleton_self a)) hf.symm hc'.symm
    · exact .inl hf
  rw [hloc f c hne]
  exact h f c hK fun a' ha' => hc a' (List.mem_append_left _ ha')

/-- A script keeps every chain the worker owns. -/
theorem Untouched.script {b : Backend} {k₀ k : Kernel} {K : Str → Prop} {A : List Str}
    (h : Untouched b k₀ K A k) (sc : Script) (hK : ∀ c, K c → Str.startswith c (key "qbs-") = true) :
    Untouched b k₀ K A (sc.run k) := fun f c hc hA =>
  (sc.owned k f c (hK c hc)).trans (h f c hc hA)

/-- The chains a run's frame covers: every chain when no script moves in the run, and
    otherwise the chains the worker owns. -/
def Covered (ls : List Label) (c : Str) : Prop :=
  (∀ l ∈ ls, l.isScript = false) ∨ Str.startswith c (key "qbs-") = true

theorem Covered.owned {ls : List Label} {sc : Script} (hsc : .script sc ∈ ls) {c : Str}
    (h : Covered ls c) : Str.startswith c (key "qbs-") = true :=
  h.resolve_left fun hno => Bool.noConfusion (hno _ hsc)

/-- Over a run whose calls are for one-word addresses with values of the backend's
    characters, no chain the run covers changes but those of the addresses handled. -/
theorem Daemon.untouched_exec {o : Oracle} {b : Backend} {env : Env}
    (henv : ∀ f, env.ResolvesOnly b.ValueChar f)
    (hns : ∀ f N, dns_addresses env.resolvConf (some f) = .ok N → ∀ n ∈ N, Str.Only b.ValueChar n)
    {k₀ : Kernel} (ls : List Label) {d : Daemon}
    (h : Daemon.Holds (fun H k => Untouched b k₀ (Covered ls) (H.map Prod.fst) k) [] d)
    (hcalls : ∀ p ∈ Daemon.calls o b env ls d,
      AddrWord p.1 ∧ (p.2.multiread (targetDir p.1)).ValuesOnly b.ValueChar) :
    Daemon.Holds (fun H k => Untouched b k₀ (Covered ls) (H.map Prod.fst) k) (Daemon.calls o b env ls d)
      (Daemon.exec o b env ls d) :=
  List.nil_append (Daemon.calls o b env ls d) ▸
    Daemon.Holds.exec (Q := fun H k => Untouched b k₀ (Covered ls) (H.map Prod.fst) k)
      (fun H _ _ _ hs => (init_chains o fun ch => ∀ f c, Covered ls c →
        (∀ a ∈ H.map Prod.fst, familyOf a = f → b.chain_for_addr a ≠ c) → ch f c = (k₀ f).chains c).of_ok hs)
      (fun H p ⟨ha, hdb⟩ s hs => by
        dsimp only at hs ⊢
        rw [List.map_append]
        exact Untouched.handle hs
          (handle_addr_local s.kernel ha (henv _) (hns _) hdb s fun _ _ _ => rfl))
      ls h hcalls fun sc hsc _ _ hQ => hQ.script sc fun _ => Covered.owned hsc

/-- Over every run of `main`, under any oracle and with either backend, when the resolver
    and the nameservers give addresses of the backend's characters and every `handle_addr`
    call of the run is for a one-word address whose stored values are of those characters:
    until `main` returns or raises, every chain other than the forward chain that is not the
    chain of an address a call of the run handled, in that address's family, holds what it
    held when the service started, if no script moves in the run, and whatever the scripts
    did if its name starts with `qbs-`. -/
theorem foreign_chains_untouched (o : Oracle) (b : Backend) (env : Env)
    (henv : ∀ f, env.ResolvesOnly b.ValueChar f)
    (hns : ∀ f N, dns_addresses env.resolvConf (some f) = .ok N → ∀ n ∈ N, Str.Only b.ValueChar n)
    (k₀ : Kernel) (db₀ : QubesDB) (ls : List Label)
    (hcalls : ∀ p ∈ Daemon.calls o b env ls (Daemon.boot k₀ db₀),
      AddrWord p.1 ∧ (p.2.multiread (targetDir p.1)).ValuesOnly b.ValueChar) :
    let d := Daemon.exec o b env ls (Daemon.boot k₀ db₀)
    d.pc.ended = false → ∀ f c, c ≠ b.forwardChain →
      ((∀ l ∈ ls, l.isScript = false) ∨ Str.startswith c (key "qbs-") = true) →
      (∀ p ∈ Daemon.calls o b env ls (Daemon.boot k₀ db₀), familyOf p.1 = f → b.chain_for_addr p.1 ≠ c) →
        (d.sys.kernel f).chains c = (k₀ f).chains c := by
  intro d hend f c _ hK hc
  refine Daemon.untouched_exec henv hns ls (fun _ _ _ _ _ => rfl) hcalls hend f c hK fun a ha => ?_
  obtain ⟨p, hp, rfl⟩ := List.mem_map.1 ha
  exact hc p hp

/-- Tables holding a chain `custom` of the administrator's in both families. -/
def customKernel : Kernel := fun _ => ⟨[], fun c => if c = key "custom" then some [] else none, none⟩

/-- The legacy worker of the HTTPS run from tables with the chain `custom`, when every
    `iptables-restore` fails: `main` waits with `custom` as it was. -/
theorem foreign_chains_untouched_custom :
    (∀ p ∈ Daemon.calls Oracle.programsFail .iptables Daemon.noNameservers httpsRun
        (Daemon.boot customKernel Daemon.acceptStoreSix),
      AddrWord p.1 ∧ (p.2.multiread (targetDir p.1)).ValuesOnly Backend.iptables.ValueChar) ∧
      (Daemon.exec Oracle.programsFail .iptables Daemon.noNameservers httpsRun
        (Daemon.boot customKernel Daemon.acceptStoreSix)).pc.ended = false ∧
      key "custom" ≠ Backend.iptables.forwardChain ∧
      (∀ l ∈ httpsRun, l.isScript = false) ∧
      (∀ p ∈ Daemon.calls Oracle.programsFail .iptables Daemon.noNameservers httpsRun
        (Daemon.boot customKernel Daemon.acceptStoreSix),
        familyOf p.1 = .four → Backend.iptables.chain_for_addr p.1 ≠ key "custom") ∧
      ((Daemon.exec Oracle.programsFail .iptables Daemon.noNameservers httpsRun
        (Daemon.boot customKernel Daemon.acceptStoreSix)).sys.kernel .four).chains (key "custom") =
        some [] := by
  have hcalls : ∀ p ∈ Daemon.calls Oracle.programsFail .iptables Daemon.noNameservers httpsRun
      (Daemon.boot customKernel Daemon.acceptStoreSix),
      AddrWord p.1 ∧ (p.2.multiread (targetDir p.1)).ValuesOnly Backend.iptables.ValueChar := by
    decide
  have hend : (Daemon.exec Oracle.programsFail .iptables Daemon.noNameservers httpsRun
      (Daemon.boot customKernel Daemon.acceptStoreSix)).pc.ended = false := by
    decide
  have hfwd : key "custom" ≠ Backend.iptables.forwardChain := by decide
  have hno : ∀ l ∈ httpsRun, l.isScript = false := by decide
  have hc : ∀ p ∈ Daemon.calls Oracle.programsFail .iptables Daemon.noNameservers httpsRun
      (Daemon.boot customKernel Daemon.acceptStoreSix),
      familyOf p.1 = .four → Backend.iptables.chain_for_addr p.1 ≠ key "custom" := by
    decide
  exact ⟨hcalls, hend, hfwd, hno, hc, foreign_chains_untouched Oracle.programsFail .iptables
    Daemon.noNameservers (Daemon.noNameservers_resolvesOnly _) Daemon.noNameservers_dns customKernel _
    httpsRun hcalls hend .four (key "custom") hfwd (.inl hno) hc⟩

end QubesFirewall
