import QubesFirewall.Kernel
import QubesFirewall.Iptables
import QubesFirewall.ReadRules

/-! # The worker: `FirewallWorker` and its two backends

    The methods of `FirewallWorker`, `IptablesWorker` and `NftablesWorker` that run
    commands, as steps of a process whose state is the filter state, the registry
    `self.chains` of the chains made so far, and the commands run so far.  A step ends
    with a value or a Python exception and keeps the state it reached either way: Python
    undoes nothing when an exception is raised.

    The store (`self.qdb`) and what `prepare_rules` reads (`/etc/resolv.conf`, the
    resolver) are arguments, since other parties change them between the daemon's steps.
    The logging to `stderr` is left out: it changes neither the filter state nor the
    registry.  `run_firewall_dir` and `run_user_script` start scripts that may change the
    filter state; they are moves of the daemon (`Script` in `Daemon`), not steps here.
-/

namespace QubesFirewall

/-! ## Section 1: The process -/

/-- The state of the worker's process: the filter state, the registry `self.chains`
    (a set, kept as a list without repeats), and the commands run so far, oldest first. -/
structure Sys where
  kernel : Kernel
  chains : Family → List Str
  ran : List Cmd

/-- A step of the worker: a value or a Python exception, and the state it leaves. -/
abbrev WorkerM := EStateM PyExc Sys

namespace Sys

/-- The state after running command `c`, which ended with `out`. -/
def record (s : Sys) (c : Cmd) (out : Outcome) : Sys :=
  ⟨if out = .ok then s.kernel.exec c else s.kernel, s.chains, s.ran ++ [c]⟩

/-- `self.chains[family].add(chain)`. -/
def addChain (s : Sys) (f : Family) (c : Str) : Sys :=
  ⟨s.kernel, fun f' => if f' = f then (s.chains f).insert c else s.chains f', s.ran⟩

@[simp] theorem record_chains (s : Sys) (c : Cmd) (out : Outcome) :
    (s.record c out).chains = s.chains := rfl

@[simp] theorem record_ok_kernel (s : Sys) (c : Cmd) : (s.record c .ok).kernel = s.kernel.exec c :=
  rfl

@[simp] theorem addChain_kernel (s : Sys) (f : Family) (c : Str) :
    (s.addChain f c).kernel = s.kernel := rfl

@[simp] theorem record_addChain_chains (s : Sys) (c : Cmd) (out : Outcome) (f : Family) (c' : Str) :
    ((s.record c out).addChain f c').chains = (s.addChain f c').chains := rfl

end Sys

section Steps

variable {α β : Type} {x : WorkerM α} {g : α → WorkerM β} {s s' : Sys}

theorem bind_of_ok {a : α} (h : x s = .ok a s') : (x >>= g) s = g a s' := by
  show EStateM.bind x g s = _
  unfold EStateM.bind
  rw [h]

theorem bind_of_error {e : PyExc} (h : x s = .error e s') : (x >>= g) s = .error e s' := by
  show EStateM.bind x g s = _
  unfold EStateM.bind
  rw [h]

theorem tryCatch_of_ok {k : PyExc → WorkerM α} {a : α} (h : x s = .ok a s') :
    tryCatch x k s = .ok a s' := by
  show EStateM.tryCatch x k s = _
  unfold EStateM.tryCatch
  rw [h]

theorem tryCatch_of_error {k : PyExc → WorkerM α} {e : PyExc} (h : x s = .error e s') :
    tryCatch x k s = k e s' := by
  show EStateM.tryCatch x k s = _
  unfold EStateM.tryCatch
  rw [h]
  rfl

theorem liftExcept_ok {y : Except PyExc α} {a : α} (h : y = .ok a) :
    (liftExcept y : WorkerM α) s = .ok a s := by
  rw [h]
  rfl

theorem liftExcept_error {y : Except PyExc α} {e : PyExc} (h : y = .error e) :
    (liftExcept y : WorkerM α) s = .error e s := by
  rw [h]
  rfl

theorem modify_apply (g : Sys → Sys) (s : Sys) : (modify g : WorkerM PUnit) s = .ok () (g s) := rfl

end Steps

/-- The exception a step raised, if any. -/
def exceptionOf {α : Type} : EStateM.Result PyExc Sys α → Option PyExc
  | .ok _ _ => none
  | .error e _ => some e

/-! ## Section 2: Running commands -/

section Commands

variable (o : Oracle)

/-- Run a command: the oracle says how it ends, and only status zero changes the kernel. -/
def run (c : Cmd) : WorkerM Outcome := fun s => .ok (o s.ran c) (s.record c (o s.ran c))

/-- `subprocess.check_call`: `CalledProcessError` on a non-zero status, `OSError` when the
    program does not start. -/
def check_call (c : Cmd) : WorkerM Unit := do
  match ← run o c with
  | .ok => pure ()
  | .fail _ => throw .calledProcessError
  | .noStart => throw .osError

/-- `subprocess.call`: the status is not looked at; `OSError` when the program does not
    start. -/
def call (c : Cmd) : WorkerM Unit := do
  match ← run o c with
  | .noStart => throw .osError
  | _ => pure ()

/-- `Popen(...).communicate(input)` and `returncode`: what the program printed when its
    status is not zero; `OSError` when it does not start. -/
def communicate (c : Cmd) : WorkerM (Option Str) := do
  match ← run o c with
  | .ok => pure none
  | .fail output => pure (some output)
  | .noStart => throw .osError

/-- `FirewallWorker.log_error`: the message as a desktop notification. -/
def log_error (msg : Str) : WorkerM Unit := call o (.notifySend msg)

theorem run_eq (c : Cmd) (s : Sys) : run o c s = .ok (o s.ran c) (s.record c (o s.ran c)) := rfl

theorem check_call_ok {c : Cmd} {s : Sys} (h : o s.ran c = .ok) :
    check_call o c s = .ok () (s.record c .ok) := by
  rw [check_call, bind_of_ok (run_eq o c s), h]
  rfl

theorem call_ok {c : Cmd} {s : Sys} (h : o s.ran c = .ok) :
    call o c s = .ok () (s.record c .ok) := by
  rw [call, bind_of_ok (run_eq o c s), h]
  rfl

theorem communicate_ok {c : Cmd} {s : Sys} (h : o s.ran c = .ok) :
    communicate o c s = .ok none (s.record c .ok) := by
  rw [communicate, bind_of_ok (run_eq o c s), h]
  rfl

theorem communicate_fail {c : Cmd} {s : Sys} {out : Str} (h : o s.ran c = .fail out) :
    communicate o c s = .ok (some out) (s.record c (.fail out)) := by
  rw [communicate, bind_of_ok (run_eq o c s), h]
  rfl

end Commands

/-! ## Section 3: The legacy backend -/

namespace Iptables

variable (o : Oracle)

/-- `IptablesWorker.run_ipt`: `iptables` or `ip6tables` by the family. -/
def run_ipt (family : Family) (args : List Str) : WorkerM Unit := check_call o (.ipt family args)

/-- `IptablesWorker.create_chain`: make the chain, jump to it first from `QBS-FORWARD` for
    traffic from `addr`, and record it. -/
def create_chain (addr chain : Str) (family : Family) : WorkerM Unit := do
  run_ipt o family [key "-N", chain]
  run_ipt o family [key "-I", key "QBS-FORWARD", key "-s", addr, key "-j", chain]
  modify (·.addChain family chain)

/-- The rest of `IptablesWorker.apply_rules_family` once the chain is made sure of:
    translate, flush the chain, and feed the program to `iptables-restore -n`. -/
def load_chain (env : Env) (chain : Str) (rules : List Dict) (family : Family) :
    WorkerM Unit := do
  let iptables ← liftExcept (prepare_rules env chain rules family)
  tryCatch
    (do
      run_ipt o family [key "-F", chain]
      match ← communicate o (.iptRestore family iptables) with
      | none => pure ()
      | some output => throw (.ruleApplyError ("iptables-restore failed: ".toList ++ output)))
    fun e => match e with
      | .calledProcessError =>
        throw (.ruleApplyError ("'iptables -F ".toList ++ chain ++ "' failed: None".toList))
      | e => throw e

/-- `IptablesWorker.apply_rules_family`. -/
def apply_rules_family (env : Env) (source : Str) (rules : List Dict) (family : Family) :
    WorkerM Unit := do
  let chain := chain_for_addr source
  if chain ∉ (← get).chains family then create_chain o source chain family
  load_chain o env chain rules family

/-- `IptablesWorker.init`: empty `QBS-FORWARD` and end it with `DROP`, in both families;
    exit with status 1 when that fails. -/
def init : WorkerM Unit :=
  tryCatch
    (do
      run_ipt o .four [key "-F", key "QBS-FORWARD"]
      run_ipt o .four [key "-A", key "QBS-FORWARD", key "-j", key "DROP"]
      run_ipt o .six [key "-F", key "QBS-FORWARD"]
      run_ipt o .six [key "-A", key "QBS-FORWARD", key "-j", key "DROP"])
    fun e => match e with
      | .calledProcessError => do
        log_error o "'QBS-FORWARD' chain not found, create it first".toList
        throw (.systemExit 1)
      | e => throw e

/-- `IptablesWorker.cleanup`: empty `QBS-FORWARD`, then empty and delete every recorded
    chain, in both families.  Python walks the set in its own order; the list order here. -/
def cleanup : WorkerM Unit :=
  [Family.four, .six].forM fun family => do
    run_ipt o family [key "-F", key "QBS-FORWARD"]
    ((← get).chains family).forM fun chain => do
      run_ipt o family [key "-F", chain]
      run_ipt o family [key "-X", chain]

end Iptables

/-! ## Section 4: The nftables backend -/

namespace Nftables

variable (o : Oracle)

/-- `NftablesWorker.run_nft`: `RuleApplyError` with what `nft` printed on a non-zero
    status. -/
def run_nft (nft_input : Str) : WorkerM Unit := do
  match ← communicate o (.nft nft_input) with
  | none => pure ()
  | some stdout => throw (.ruleApplyError ("nft failed: ".toList ++ stdout))

/-- The program of `NftablesWorker.create_chain`: the chain, and a jump to it for traffic
    from `addr` at the end of `forward`. -/
def createProgram (family : Family) (addr chain : Str) : Str :=
  "table ".toList ++ ip_match family ++ " qubes-firewall \x7b\n  chain ".toList ++ chain ++
    " \x7b\n  \x7d\n  chain forward \x7b\n    ".toList ++ ip_match family ++ " saddr ".toList ++
    addr ++ " jump ".toList ++ chain ++ "\n  \x7d\n\x7d\n".toList

/-- `NftablesWorker.create_chain`. -/
def create_chain (addr chain : Str) (family : Family) : WorkerM Unit := do
  run_nft o (createProgram family addr chain)
  modify (·.addChain family chain)

/-- The rest of `NftablesWorker.apply_rules_family` once the chain is made sure of:
    translate, and feed the program to `nft`. -/
def load_chain (env : Env) (chain : Str) (rules : List Dict) (family : Family) :
    WorkerM Unit := do
  run_nft o (← liftExcept (prepare_rules env chain rules family))

/-- `NftablesWorker.apply_rules_family`. -/
def apply_rules_family (env : Env) (source : Str) (rules : List Dict) (family : Family) :
    WorkerM Unit := do
  let chain := chain_for_addr source
  if chain ∉ (← get).chains family then create_chain o source chain family
  load_chain o env chain rules family

/-- The program of `NftablesWorker.init`: the table of each family with its `forward`
    chain, policy `drop`. -/
def initProgram : Str :=
  ([key "ip", key "ip6"].map fun family =>
    "table ".toList ++ family ++ " qubes-firewall \x7b\n  chain forward \x7b\n    type filter hook forward priority 0;\n    policy drop;\n    ct state established,related accept\n  \x7d\n\x7d\n".toList).flatten

/-- `NftablesWorker.init`. -/
def init : WorkerM Unit := run_nft o initProgram

/-- The program of `NftablesWorker.cleanup`. -/
def cleanupProgram : Str := "delete table ip qubes-firewall\ndelete table ip6 qubes-firewall\n".toList

/-- `NftablesWorker.cleanup`. -/
def cleanup : WorkerM Unit := run_nft o cleanupProgram

end Nftables

/-! ## Section 5: `handle_addr` -/

/-- The worker class `main()` picks: `NftablesWorker` when `nft` is installed. -/
inductive Backend where
  | iptables
  | nftables
  deriving DecidableEq

namespace Backend

variable (o : Oracle)

/-- The backend's `chain_for_addr`. -/
def chain_for_addr : Backend → Str → Str
  | .iptables => Iptables.chain_for_addr
  | .nftables => Nftables.chain_for_addr

/-- The backend's `prepare_rules`. -/
def prepare_rules : Backend → Env → Str → List Dict → Family → Except PyExc Str
  | .iptables => Iptables.prepare_rules
  | .nftables => Nftables.prepare_rules

/-- The backend's `apply_rules_family`. -/
def apply_rules_family : Backend → Env → Str → List Dict → Family → WorkerM Unit
  | .iptables => Iptables.apply_rules_family o
  | .nftables => Nftables.apply_rules_family o

/-- The backend's `create_chain`. -/
def create_chain : Backend → Str → Str → Family → WorkerM Unit
  | .iptables => Iptables.create_chain o
  | .nftables => Nftables.create_chain o

/-- The backend's `load_chain`. -/
def load_chain : Backend → Env → Str → List Dict → Family → WorkerM Unit
  | .iptables => Iptables.load_chain o
  | .nftables => Nftables.load_chain o

/-- `apply_rules_family` makes the chain when the registry lacks it, then loads it. -/
theorem apply_rules_family_eq (b : Backend) (env : Env) (a : Str) (rules : List Dict) (f : Family)
    (s : Sys) :
    b.apply_rules_family o env a rules f s =
      if b.chain_for_addr a ∉ s.chains f then
        (b.create_chain o a (b.chain_for_addr a) f >>= fun _ =>
          b.load_chain o env (b.chain_for_addr a) rules f) s
      else b.load_chain o env (b.chain_for_addr a) rules f s := by
  cases b <;>
  · simp only [apply_rules_family, create_chain, load_chain, chain_for_addr,
      Iptables.apply_rules_family, Nftables.apply_rules_family]
    rw [bind_of_ok (rfl : (get : WorkerM Sys) s = .ok s s)]
    split <;> rfl

/-- The backend's `init`. -/
def init : Backend → WorkerM Unit
  | .iptables => Iptables.init o
  | .nftables => Nftables.init o

/-- The backend's `cleanup`. -/
def cleanup : Backend → WorkerM Unit
  | .iptables => Iptables.cleanup o
  | .nftables => Nftables.cleanup o

end Backend

/-- The family `apply_rules` picks for a source address: IPv6 when it holds a colon. -/
def familyOf (addr : Str) : Family := if is_ip6 addr then .six else .four

variable (o : Oracle) (b : Backend) (env : Env)

/-- `apply_rules`: `apply_rules_family` in the family of the source address. -/
def apply_rules (source_addr : Str) (rules : List Dict) : WorkerM Unit :=
  b.apply_rules_family o env source_addr rules (familyOf source_addr)

/-- The `except` clauses of `FirewallWorker.handle_addr`: on a `RuleParseError` apply
    `[{action: drop}]`; on a `RuleApplyError` try that too, and give up with a last message
    when it fails as well; any other exception goes on. -/
def handle_addr_except (addr : Str) (e : PyExc) : WorkerM Unit :=
  match e with
  | .ruleParseError msg => do
    log_error o ("Failed to parse rules for ".toList ++ addr ++ " (".toList ++ msg ++
      "), blocking traffic".toList)
    apply_rules o b env addr [dropAll]
  | .ruleApplyError msg => do
    log_error o ("Failed to apply rules for ".toList ++ addr ++ " (".toList ++ msg ++
      "), blocking traffic".toList)
    tryCatch (apply_rules o b env addr [dropAll]) fun e => match e with
      | .ruleApplyError _ => log_error o ("Failed to block traffic for ".toList ++ addr)
      | e => throw e
  | e => throw e

/-- `FirewallWorker.handle_addr`: read and apply the rules of `addr`. -/
def handle_addr (db : QubesDB) (addr : Str) : WorkerM Unit :=
  tryCatch
    (do
      let rules ← liftExcept (read_rules db addr)
      apply_rules o b env addr rules)
    (handle_addr_except o b env addr)

/-- `handle_addr` after `read_rules`: the rules read are applied under the `except` clauses,
    and an exception of `read_rules` goes to them. -/
theorem handle_addr_eq (db : QubesDB) (addr : Str) (s : Sys) :
    handle_addr o b env db addr s =
      match read_rules db addr with
      | .ok rules => tryCatch (apply_rules o b env addr rules) (handle_addr_except o b env addr) s
      | .error e => handle_addr_except o b env addr e s := by
  cases hr : read_rules db addr with
  | ok rules =>
    rw [handle_addr, hr]
    rfl
  | error e => rw [handle_addr, tryCatch_of_error (bind_of_error (liftExcept_error hr))]

end QubesFirewall
