import QubesFirewall.Forward
import QubesFirewall.Isolation
import QubesFirewall.Cleanup

/-! # A start on the tables an earlier run left

    `main` returns only from `cleanup`, which leaves no jump and none of the worker's chains;
    a service that is killed, or whose `cleanup` raises, leaves them, and the next start of
    the service finds them.  The two backends then differ.  `IptablesWorker.init` empties
    `QBS-FORWARD` and ends it with `DROP`, so once it has returned, a packet from a host no
    address `main` has handled names meets no jump and is dropped, whatever jumps the tables
    held.  `NftablesWorker.init` declares the `forward` chain with policy `drop` without
    emptying it, so a jump an earlier run left for a host `main` never handles stays, and
    the packets of that host meet the chain it names, as it was, before that policy.

    Both rest on one frame fact: a `handle_addr` call for `addr`, whatever the commands do,
    changes neither the jumps a packet from another host meets nor the final verdicts.
-/

namespace QubesFirewall

/-! ## Section 1: `handle_addr` keeps the forward chain of other hosts -/

/-- In every family, a packet from each host `a` does not name meets the jumps `Y` gives
    it, and the forward chain ends with the verdict `P` gives. -/
def OtherJumps (a : Str) (Y : Family → Str → List (Str × Str)) (P : Family → Option Str)
    (k : Kernel) : Prop :=
  (∀ f src, sameHost a src = false → (k f).jumps.filter (fun j => sameHost j.1 src) = Y f src) ∧
    ∀ f, (k f).policy = P f

section Frame

variable {a : Str} {Y : Family → Str → List (Str × Str)} {P : Family → Option Str} {k : Kernel}

theorem OtherJumps.modify (h : OtherJumps a Y P k) {f : Family} {g : Table → Table}
    (hg : ∀ src, sameHost a src = false →
      (g (k f)).jumps.filter (fun j => sameHost j.1 src) = (k f).jumps.filter fun j => sameHost j.1 src)
    (hp : (g (k f)).policy = (k f).policy) :
    OtherJumps a Y P (k.modify f g) := by
  refine ⟨fun f' src hsrc => ?_, fun f' => ?_⟩ <;> by_cases hf : f' = f
  · subst hf
    rw [Kernel.modify_self, hg src hsrc]
    exact h.1 f' src hsrc
  · rw [Kernel.modify_ne _ _ hf]
    exact h.1 f' src hsrc
  · subst hf
    rw [Kernel.modify_self, hp]
    exact h.2 f'
  · rw [Kernel.modify_ne _ _ hf]
    exact h.2 f'

theorem OtherJumps.of_grows (h : OtherJumps a Y P k) {f : Family} {g : Table → Table}
    (hg : (k f).Grows (g (k f))) : OtherJumps a Y P (k.modify f g) :=
  h.modify (fun _ _ => by rw [hg.1]) hg.2.1

end Frame

section Worker

variable {o : Oracle} {env : Env} {a : Str} (Y : Family → Str → List (Str × Str))
  (P : Family → Option Str)

/-- The legacy `create_chain` adds a jump for its own address only. -/
theorem Iptables.create_chain_otherJumps :
    Keeps (fun k _ => OtherJumps a Y P k)
      (Backend.iptables.create_chain o a (Backend.iptables.chain_for_addr a) (familyOf a)) := by
  refine (Keeps.check_call fun s hs => ?_).bind fun _ =>
    (Keeps.check_call fun s hs => ?_).bind fun _ => fun s hs => hs
  · exact hs.of_grows (g := fun t => t.ipt [key "-N", _]) (Table.grows_setChain _ _ _)
  · exact hs.modify (g := fun t => t.ipt [key "-I", key "QBS-FORWARD", key "-s", a, key "-j", _])
      (fun src hsrc => by
        dsimp only
        rw [Table.ipt_insert, List.filter_cons_of_neg (by simp [hsrc])]) rfl

theorem create_chain_otherJumps {b : Backend} (ha : AddrWord a) :
    Keeps (fun k _ => OtherJumps a Y P k) (b.create_chain o a (b.chain_for_addr a) (familyOf a)) := by
  cases b
  · exact Iptables.create_chain_otherJumps Y P
  · refine (Keeps.run_nft fun s hs => ?_).bind fun _ => fun s hs => hs
    rw [nft_createProgram _ ha.1 ha.2 (Backend.nftables.chain_ne_nil a)
      (Backend.nftables.oneWord_chain ha.2) (Backend.nftables.chain_ne_forward a)]
    exact hs.modify (fun _ hsrc => Backend.nftables.makeChain_filter_other _ hsrc)
      (Backend.nftables.makeChain_policy _ _ _)

/-- A legacy `handle_addr` call, whatever the store and the commands, changes neither the
    jumps a packet from another host meets nor the final verdicts. -/
theorem Iptables.handle_addr_otherJumps (db : QubesDB) :
    Keeps (fun k _ => OtherJumps a Y P k) (handle_addr o .iptables env db a) :=
  handle_addr_keeps (R := fun _ => True) (fun s hs _ => Iptables.create_chain_otherJumps Y P s hs)
    (fun _ _ => Iptables.load_chain_grows (fun _ _ _ _ hg h => OtherJumps.of_grows h hg) a _)
    (fun _ _ => trivial) trivial

/-- A `handle_addr` call for a one-word address whose stored values keep the programs'
    shape changes neither the jumps a packet from another host meets nor the final
    verdicts. -/
theorem handle_addr_otherJumps {b : Backend} (ha : AddrWord a)
    (henv : env.ResolvesOnly b.ValueChar (familyOf a))
    (hns : ∀ N, dns_addresses env.resolvConf (some (familyOf a)) = .ok N →
      ∀ n ∈ N, Str.Only b.ValueChar n)
    {db : QubesDB} (hdb : (db.multiread (targetDir a)).ValuesOnly b.ValueChar) :
    Keeps (fun k _ => OtherJumps a Y P k) (handle_addr o b env db a) :=
  handle_addr_keeps (fun s hs _ => create_chain_otherJumps Y P ha s hs)
    (fun _ => load_chain_grows ha henv hns fun _ _ _ _ hg h => OtherJumps.of_grows h hg)
    (fun _ => read_rules_valuesOnly hdb) (dropAll_valuesOnly b)

end Worker

/-! ## Section 2: Runs of `main` -/

/-- In every family, a packet from each host no address of `A` names meets the jumps `J₀`
    gives it, and the forward chain ends with the verdict `P` gives. -/
def JumpsOutside (J₀ : Family → Str → List (Str × Str)) (P : Family → Option Str) (A : List Str)
    (k : Kernel) : Prop :=
  (∀ f src, (∀ a ∈ A, sameHost a src = false) →
    (k f).jumps.filter (fun j => sameHost j.1 src) = J₀ f src) ∧ ∀ f, (k f).policy = P f

theorem JumpsOutside.handle {J₀ : Family → Str → List (Str × Str)} {P : Family → Option Str}
    {A : List Str} {a : Str} {k k' : Kernel} (h : JumpsOutside J₀ P A k)
    (hk' : OtherJumps a (fun f src => (k f).jumps.filter fun j => sameHost j.1 src)
      (fun f => (k f).policy) k') :
    JumpsOutside J₀ P (A ++ [a]) k' := by
  refine ⟨fun f src hsrc => ?_, fun f => (hk'.2 f).trans (h.2 f)⟩
  rw [hk'.1 f src (hsrc a (List.mem_append_right _ (List.mem_singleton_self a)))]
  exact h.1 f src fun x hx => hsrc x (List.mem_append_left _ hx)

namespace Daemon

variable {o : Oracle} {b : Backend} {env : Env} {Q : List (Str × QubesDB) → Kernel → Prop}

/-- `main`'s first step runs `init`: what every state a returning `init` leaves has holds
    after it, before any call. -/
theorem Holds.start {d : Daemon} (hd : d.pc = .start)
    (hQ : ∀ u s', b.init o d.sys = .ok u s' → Q [] s'.kernel) : Holds Q [] (step o b env .main d) := by
  rcases d with ⟨pc, sys, db, w, q, tr, wr⟩
  dsimp only at hd hQ
  subst hd
  intro hend
  simp only [step, mainStep, Option.getD_some] at hend ⊢
  cases hi : b.init o sys with
  | ok u s' => exact hQ u s' hi
  | error e s' =>
    rw [hi] at hend
    cases hend

/-- Over a run whose `handle_addr` calls each keep the jumps of the other hosts and the final
    verdicts, the hosts no call named keep the jumps they had, when a returning `init` keeps
    them. -/
theorem jumpsOutside_exec {J : Family → Str → List (Str × Str)} {P : Family → Option Str}
    {C : Str × QubesDB → Prop}
    (hinit : ∀ A (s s' : Sys) u, JumpsOutside J P A s.kernel → b.init o s = .ok u s' →
      JumpsOutside J P A s'.kernel)
    (hframe : ∀ p, C p → ∀ Y P', Keeps (fun k _ => OtherJumps p.1 Y P' k) (handle_addr o b env p.2 p.1))
    (ls : List Label) {d : Daemon}
    (h : Holds (fun H k => JumpsOutside J P (H.map Prod.fst) k) [] d)
    (hcalls : ∀ p ∈ calls o b env ls d, C p) :
    Holds (fun H k => JumpsOutside J P (H.map Prod.fst) k) (calls o b env ls d) (exec o b env ls d) :=
  List.nil_append (calls o b env ls d) ▸
    Holds.exec (Q := fun H k => JumpsOutside J P (H.map Prod.fst) k) (fun H => hinit (H.map Prod.fst))
      (fun H p hp s hs => by
        dsimp only at hs ⊢
        rw [List.map_append]
        exact hs.handle (hframe p hp _ _ s ⟨fun _ _ _ => rfl, fun _ => rfl⟩))
      ls h hcalls fun sc _ _ k hk =>
        ⟨fun f src hsrc => by rw [(sc.forward k f).1]; exact hk.1 f src hsrc,
          fun f => (sc.forward k f).2.trans (hk.2 f)⟩

end Daemon

/-! ## Section 3: What `init` does to leftover jumps -/

section Init

variable {o : Oracle}

/-- A `try` whose handler raises whatever it is given returns only when its body does. -/
theorem tryCatch_eq_ok {α : Type} {x : WorkerM α} {k : PyExc → WorkerM α} {s s' : Sys} {v : α}
    (hk : ∀ e s, ∃ e' s', k e s = .error e' s') (h : tryCatch x k s = .ok v s') :
    x s = .ok v s' := by
  cases hx : x s with
  | ok v₁ s₁ => rwa [tryCatch_of_ok hx] at h
  | error e s₁ =>
    obtain ⟨e', s₂, he⟩ := hk e s₁
    rw [tryCatch_of_error hx, he] at h
    cases h

/-- An `IptablesWorker.init` that returns leaves `QBS-FORWARD` without a jump and ending with
    `DROP` in both families: its handler exits. -/
theorem Iptables.init_eq_ok {s s' : Sys} {u : Unit} (h : Backend.iptables.init o s = .ok u s')
    (f : Family) : (s'.kernel f).jumps = [] ∧ (s'.kernel f).policy = some (key "DROP") := by
  rw [Backend.init, Iptables.init] at h
  have hb := tryCatch_eq_ok ?_ h
  · obtain ⟨_, s₁, h₁, h⟩ := exists_of_bind_eq_ok hb
    obtain ⟨_, s₂, h₂, h⟩ := exists_of_bind_eq_ok h
    obtain ⟨_, s₃, h₃, h₄⟩ := exists_of_bind_eq_ok h
    rw [check_call_eq_ok h₄, check_call_eq_ok h₃, check_call_eq_ok h₂, check_call_eq_ok h₁]
    cases f <;> simp [Kernel.exec, Kernel.modify, Table.ipt_flush_forward, Table.ipt_append_drop]
  · intro e s
    cases e
    case calledProcessError =>
      dsimp only
      cases hl : log_error o ("'QBS-FORWARD' chain not found, create it first".toList) s with
      | ok _ s₁ => exact ⟨_, _, by rw [bind_of_ok hl]; rfl⟩
      | error e s₁ => exact ⟨_, _, bind_of_error hl⟩
    all_goals exact ⟨_, _, rfl⟩

/-- An `NftablesWorker.init` that returns has set the final verdict of both forward chains to
    `drop`, and changed nothing else. -/
theorem Nftables.init_eq_ok {s s' : Sys} {u : Unit} (h : Backend.nftables.init o s = .ok u s') :
    s'.kernel = fun f => { s.kernel f with policy := some (key "drop") } := by
  rw [run_nft_eq_ok h, Sys.record_ok_kernel]
  exact nft_initProgram s.kernel

/-- An `init` that returns has ended both forward chains with the backend's drop. -/
theorem Backend.init_policy {b : Backend} {s s' : Sys} {u : Unit} (h : b.init o s = .ok u s')
    (f : Family) : (s'.kernel f).policy = some (b.verdictOf (key "drop")) := by
  cases b
  · exact (Iptables.init_eq_ok h f).2
  · rw [Nftables.init_eq_ok h]
    rfl

end Init

/-! ## Section 4: Hosts not handled after a start -/

/-- Tables an earlier run left: a jump for `10.137.0.9` to its chain, which accepts
    everything, in both families. -/
def leftoverKernel : Kernel := fun _ =>
  ⟨[(key "10.137.0.9", key "qbs-10-137-0-9")],
    fun c => if c = key "qbs-10-137-0-9" then some [key "accept"] else none, none⟩

/-- A new HTTPS packet from `10.137.0.9`. -/
def leftoverPacket : Packet (familyOf (key "10.137.0.9")) :=
  ⟨key "tcp", key "93.184.216.34", some 443, none, by decide, by decide⟩

/-- `iptables` as it answers on the tables `k₀` the service started on: `-N` of a chain that
    existed then, or that an earlier `-N` made, exits with status 1, since no chain is deleted
    before `cleanup`; every other command exits with status zero. -/
def Oracle.leftover (k₀ : Kernel) : Oracle := fun ran c =>
  match c with
  | .ipt f [op, chain] =>
    if op = key "-N" ∧ (((k₀ f).chains chain).isSome = true ∨ Cmd.ipt f [key "-N", chain] ∈ ran) then
      .fail (key "iptables: Chain already exists.")
    else .ok
  | _ => .ok

section Leftover

variable {k₀ : Kernel} {a : Str}
  (hleft : ((k₀ (familyOf a)).chains (Backend.iptables.chain_for_addr a)).isSome)

include hleft

/-- `apply_rules` for an address whose chain was in the tables and is not registered raises
    `CalledProcessError` at `-N`, whatever the rules. -/
theorem apply_rules_leftover (env : Env) {s : Sys}
    (hreg : Backend.iptables.chain_for_addr a ∉ s.chains (familyOf a)) (rules : List Dict) :
    ∃ s', apply_rules (Oracle.leftover k₀) .iptables env a rules s = .error .calledProcessError s' := by
  have ho : Oracle.leftover k₀ s.ran (.ipt (familyOf a) [key "-N", Backend.iptables.chain_for_addr a]) =
      .fail (key "iptables: Chain already exists.") :=
    if_pos ⟨rfl, .inl hleft⟩
  rw [apply_rules, Backend.apply_rules_family_eq, if_pos hreg]
  exact ⟨_, bind_of_error (bind_of_error (by rw [Iptables.run_ipt, check_call, bind_of_ok (run_eq _ _ s), ho]; rfl))⟩

/-- `handle_addr` for such an address raises, whatever the store: its `except` clauses catch
    neither `CalledProcessError` nor what `read_rules` raises besides `RuleParseError`. -/
theorem handle_addr_leftover (env : Env) {s : Sys}
    (hreg : Backend.iptables.chain_for_addr a ∉ s.chains (familyOf a)) (db : QubesDB) :
    ∃ e s', handle_addr (Oracle.leftover k₀) .iptables env db a s = .error e s' := by
  have hlog : ∀ msg, log_error (Oracle.leftover k₀) msg s = .ok () (s.record (.notifySend msg) .ok) :=
    fun _ => call_ok _ rfl
  rw [handle_addr_eq]
  cases read_rules db a with
  | ok rules =>
    dsimp only
    obtain ⟨s', h⟩ := apply_rules_leftover hleft env hreg rules
    exact ⟨_, _, by rw [tryCatch_of_error h]; rfl⟩
  | error e =>
    dsimp only
    cases e
    case ruleParseError msg =>
      obtain ⟨s', h⟩ := apply_rules_leftover hleft env (s := s.record (.notifySend _) .ok) hreg [dropAll]
      exact ⟨_, _, by rw [handle_addr_except, bind_of_ok (hlog _), h]⟩
    case ruleApplyError msg =>
      obtain ⟨s', h⟩ := apply_rules_leftover hleft env (s := s.record (.notifySend _) .ok) hreg [dropAll]
      exact ⟨_, _, by rw [handle_addr_except, bind_of_ok (hlog _), tryCatch_of_error h]; rfl⟩
    all_goals exact ⟨_, _, rfl⟩

end Leftover

/-- A legacy `handle_addr` call for `a'`, whatever the oracle, registers no chain but the
    chain of `a'` in its family. -/
theorem Iptables.handle_addr_unregistered {o : Oracle} {env : Env} {f : Family} {c a' : Str}
    (hne : ¬(f = familyOf a' ∧ c = Backend.iptables.chain_for_addr a')) (db : QubesDB) :
    Keeps (fun _ reg => c ∉ reg f) (handle_addr o .iptables env db a') :=
  handle_addr_keeps (R := fun _ => True)
    (fun s hs _ => ((Keeps.check_call fun _ h => h).bind fun _ => (Keeps.check_call fun _ h => h).bind
      fun _ s hs => by
        show c ∉ (s.addChain _ _).chains f
        rw [Sys.mem_addChain, not_or]
        exact ⟨hs, hne⟩) s hs)
    (fun _ _ => Iptables.load_chain_grows (fun _ _ _ _ _ h => h) a' _) (fun _ _ => trivial) trivial

namespace Daemon

/-- Where `main` stands while the chain of `a` is left and unregistered: it has not
    registered its watch, and is either in the initial load with `a` still to come, or has
    raised. -/
def LoadBlocked (a : Str) (d : Daemon) : Prop :=
  d.watching = false ∧
    ((∃ todo, d.pc = .sweep todo ∧ a ∈ todo ∧
        (∀ a' ∈ todo, a' ≠ a → familyOf a' = familyOf a →
          Backend.iptables.chain_for_addr a' ≠ Backend.iptables.chain_for_addr a) ∧
        Backend.iptables.chain_for_addr a ∉ d.sys.chains (familyOf a)) ∨
      ∃ e, d.pc = .raised e)

variable {k₀ : Kernel} {env : Env} {a : Str}
  (hleft : ((k₀ (familyOf a)).chains (Backend.iptables.chain_for_addr a)).isSome)

include hleft

/-- Every move keeps `main` blocked: the initial load reaches `a` or raises first, and
    handling `a` raises. -/
theorem LoadBlocked.step {d : Daemon} (h : LoadBlocked a d) (l : Label) :
    LoadBlocked a (step (Oracle.leftover k₀) .iptables env l d) := by
  rcases d with ⟨pc, sys, db, w, q, tr, wr⟩
  obtain ⟨hw, hpc⟩ := h
  dsimp only at hw hpc
  subst hw
  cases l with
  | main =>
    rcases hpc with ⟨todo, rfl, ha, hown, hreg⟩ | ⟨e, rfl⟩
    · cases todo with
      | nil => exact absurd ha (List.not_mem_nil a)
      | cons a' todo =>
        simp only [Daemon.step, mainStep, Option.getD_some]
        by_cases haa : a' = a
        · subst haa
          obtain ⟨e, s', h⟩ := handle_addr_leftover hleft env hreg db
          rw [h]
          exact ⟨rfl, .inr ⟨e, rfl⟩⟩
        · cases hr : handle_addr (Oracle.leftover k₀) .iptables env db a' sys with
          | ok u s' =>
            have hreg' : Backend.iptables.chain_for_addr a ∉
                (stateOf (handle_addr (Oracle.leftover k₀) .iptables env db a' sys)).chains (familyOf a) :=
              Iptables.handle_addr_unregistered
                (fun h' => hown a' (List.mem_cons_self _ _) haa h'.1.symm h'.2.symm) db sys hreg
            rw [hr] at hreg'
            exact ⟨rfl, .inl ⟨todo, rfl, (List.mem_cons.1 ha).resolve_left (Ne.symm haa),
              fun x hx => hown x (List.mem_cons_of_mem _ hx), hreg'⟩⟩
          | error e s' => exact ⟨rfl, .inr ⟨e, rfl⟩⟩
    · exact ⟨rfl, .inr ⟨e, rfl⟩⟩
  | store op => exact ⟨rfl, hpc⟩
  | script sc =>
    have hne : pc ≠ .listing := by rcases hpc with ⟨todo, rfl, -⟩ | ⟨e, rfl⟩ <;> nofun
    dsimp only [Daemon.step]
    rw [if_neg hne]
    exact ⟨rfl, hpc⟩
  | signal =>
    rcases hpc with ⟨todo, rfl, hrest⟩ | ⟨e, rfl⟩
    · exact ⟨rfl, .inl ⟨todo, rfl, hrest⟩⟩
    · exact ⟨rfl, .inr ⟨e, rfl⟩⟩

theorem LoadBlocked.exec : ∀ (ls : List Label) {d : Daemon}, LoadBlocked a d →
    LoadBlocked a (Daemon.exec (Oracle.leftover k₀) .iptables env ls d)
  | [], _, h => h
  | l :: ls, _, h => by
    rw [exec_cons]
    exact LoadBlocked.exec ls (h.step hleft l)

omit hleft in
theorem exec_replicate_raised {o : Oracle} {b : Backend} {e : PyExc} :
    ∀ (k : Nat) {d : Daemon}, d.pc = .raised e → Daemon.exec o b env (List.replicate k .main) d = d
  | 0, _, _ => rfl
  | k + 1, d, hpc => by
    have hstep : Daemon.step o b env .main d = d := by
      rcases d with ⟨pc, sys, db, w, q, tr, wr⟩
      cases hpc
      rfl
    rw [List.replicate_succ, exec_cons, hstep, exec_replicate_raised k hpc]

/-- From the initial load with `a` still to come, one step of `main` per address to load
    ends with `main` raised. -/
theorem LoadBlocked.raises : ∀ (todo : List Str) {d : Daemon}, LoadBlocked a d → d.pc = .sweep todo →
    ∃ e, (Daemon.exec (Oracle.leftover k₀) .iptables env (List.replicate todo.length .main) d).pc =
      .raised e
  | [], d, ⟨_, hpc⟩, hd => by
    rcases hpc with ⟨todo, hpc, ha, -⟩ | ⟨e, hpc⟩ <;> rw [hd] at hpc <;> cases hpc
    exact absurd ha (List.not_mem_nil a)
  | a' :: todo, d, h, hd => by
    rw [List.length_cons, List.replicate_succ, exec_cons]
    have h' : LoadBlocked a (Daemon.step (Oracle.leftover k₀) .iptables env .main d) :=
      h.step hleft .main
    rcases h'.2 with ⟨todo', hpc, -⟩ | ⟨e, hpc⟩
    · have htodo : todo' = todo := by
        rcases d with ⟨pc, sys, db, w, q, tr, wr⟩
        dsimp only at hd
        subst hd
        simp only [Daemon.step, mainStep, Option.getD_some] at hpc
        cases hr : handle_addr (Oracle.leftover k₀) .iptables env db a' sys with
        | ok u s' =>
          rw [hr] at hpc
          exact (Pc.sweep.inj hpc).symm
        | error e s' =>
          rw [hr] at hpc
          cases hpc
      exact LoadBlocked.raises todo h' (htodo ▸ hpc)
    · exact ⟨e, by rw [exec_replicate_raised _ hpc, hpc]⟩

end Daemon

/-- Under `iptables` as it answers on the tables the service started on, when those tables
    hold the chain of an address of the store's initial load, left by an earlier run, and
    the other addresses of its family have chains of their own: over every run of `main`
    that lists the targets right after `init`, `main` never registers its watch, and within
    one step per address to load it has raised. -/
theorem iptables_leftover_chain_stops_main (env : Env) (k₀ : Kernel) (db₀ : QubesDB)
    {ts : List Str} (hts : list_targets db₀ = .ok ts) {a : Str} (ha : a ∈ ts)
    (hleft : ((k₀ (familyOf a)).chains (Backend.iptables.chain_for_addr a)).isSome)
    (hown : ∀ a' ∈ ts, a' ≠ a → familyOf a' = familyOf a →
      Backend.iptables.chain_for_addr a' ≠ Backend.iptables.chain_for_addr a) :
    (∀ ls, (Daemon.exec (Oracle.leftover k₀) .iptables env (.main :: .main :: ls)
      (Daemon.boot k₀ db₀)).watching = false) ∧
    ∃ e, (Daemon.exec (Oracle.leftover k₀) .iptables env (List.replicate (ts.length + 2) .main)
      (Daemon.boot k₀ db₀)).pc = .raised e := by
  let d₂ := Daemon.step (Oracle.leftover k₀) .iptables env .main
    (Daemon.step (Oracle.leftover k₀) .iptables env .main (Daemon.boot k₀ db₀))
  have hload : Daemon.LoadBlocked a d₂ ∧ (d₂.pc = .sweep ts ∨ ∃ e, d₂.pc = .raised e) := by
    have hinit := Iptables.init_keeps_of (o := Oracle.leftover k₀)
      (J := fun _ reg => reg = fun _ => []) (fun _ _ _ h => h) (fun _ _ _ _ _ h => h) ⟨k₀, fun _ => [], []⟩ rfl
    simp only [d₂, Daemon.step, Daemon.mainStep, Daemon.boot, Option.getD_some]
    cases hi : Backend.iptables.init (Oracle.leftover k₀) ⟨k₀, fun _ => [], []⟩ with
    | ok u s =>
      rw [hi] at hinit
      have hs : s.chains = fun _ => [] := hinit
      simp only [Daemon.after, Daemon.sweepOf, hts, Option.getD_some]
      refine ⟨⟨rfl, .inl ⟨ts, rfl, ha, hown, ?_⟩⟩, .inl trivial⟩
      rw [hs]
      exact List.not_mem_nil _
    | error e s => exact ⟨⟨rfl, .inr ⟨e, rfl⟩⟩, .inr ⟨e, rfl⟩⟩
  refine ⟨fun ls => (hload.1.exec hleft ls).1, ?_⟩
  rw [List.replicate_succ, List.replicate_succ, Daemon.exec_cons, Daemon.exec_cons]
  rcases hload.2 with hpc | ⟨e, hpc⟩
  · exact hload.1.raises hleft ts hpc
  · exact ⟨e, by rw [Daemon.exec_replicate_raised _ hpc, hpc]⟩

/-- The store of the start: a rule set for `10.137.0.9`, whose chain the tables still hold. -/
def leftoverStore : QubesDB :=
  QubesDB.commit Dict.empty (key "10.137.0.9") [(key "policy", key "accept")]

/-- The legacy worker started on the tables an earlier run left, with `10.137.0.9` in the
    store: `main` raises `CalledProcessError` in the initial load. -/
theorem iptables_leftover_chain_stops_main_restart :
    list_targets leftoverStore = .ok [key "10.137.0.9"] ∧
      ((leftoverKernel (familyOf (key "10.137.0.9"))).chains
        (Backend.iptables.chain_for_addr (key "10.137.0.9"))).isSome ∧
      (∀ ls, (Daemon.exec (Oracle.leftover leftoverKernel) .iptables Daemon.noNameservers
        (.main :: .main :: ls) (Daemon.boot leftoverKernel leftoverStore)).watching = false) ∧
      (Daemon.exec (Oracle.leftover leftoverKernel) .iptables Daemon.noNameservers
        (List.replicate 3 .main) (Daemon.boot leftoverKernel leftoverStore)).pc =
          .raised .calledProcessError := by
  have hts : list_targets leftoverStore = .ok [key "10.137.0.9"] := by decide
  have hleft : ((leftoverKernel (familyOf (key "10.137.0.9"))).chains
      (Backend.iptables.chain_for_addr (key "10.137.0.9"))).isSome := by decide
  exact ⟨hts, hleft, (iptables_leftover_chain_stops_main Daemon.noNameservers leftoverKernel
    leftoverStore hts (List.mem_singleton_self _) hleft
    fun _ h hne => absurd (List.mem_singleton.1 h) hne).1, by decide⟩

end QubesFirewall
