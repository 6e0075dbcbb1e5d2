import QubesFirewall.Worker

/-! # The daemon: `FirewallWorker.main` among the store's writers and the signal

    `main` runs `init`, then the scripts of `qubes-firewall.d` and the user script, lists
    the addresses of the store, handles each of them, registers a watch on
    `/qubes-firewall/`, and then handles the address of each commit event the watch reports,
    skipping the events of the writes below an address, until a read of the watch fails with
    `OSError`; then it runs `cleanup`.  Its steps interleave with those of other parties:
    writers, who update the rule set of an address one store operation at a time (the watch
    queues one event per operation once it is registered); the scripts, which may change
    the chains the worker does not own; and the termination signal, whose handler runs
    `terminate()` and, when `main` is blocked in `read_watch`, makes the read fail.

    A run is the sequence of labels saying which party moves next.  `main` has no step
    while it is blocked on an empty watch queue, nor once it has returned or raised; its
    label then changes nothing.  A script moves only while `main` waits for the scripts.
-/

namespace QubesFirewall

/-! ## Section 1: The store's writers

    A writer updates the rule set of an address in the store's layout: it removes the
    directory `/qubes-firewall/<addr>/`, writes the keys below it one by one, and ends the
    update with the empty write to `/qubes-firewall/<addr>`.  Each operation is a move of
    its own, so `main` may read the store in the middle of an update. -/

/-- The path whose empty write commits the rule set of `addr`: `/qubes-firewall/<addr>`. -/
def commitPath (addr : Str) : Str := firewallDir ++ addr

namespace QubesDB

/-- The store without the rule set of `addr`. -/
def clear (db : QubesDB) (addr : Str) : QubesDB :=
  ⟨db.items.filter fun kv => !Str.startswith kv.1 (targetDir addr),
    (List.Sublist.map _ (List.filter_sublist _)).nodup db.nodup⟩

/-- A writer's whole update, with no other move between its operations: the rule set of
    `addr` replaced by `entries` (leaf, value), then the empty write to
    `/qubes-firewall/<addr>`. -/
def commit (db : QubesDB) (addr : Str) (entries : List (Str × Str)) : QubesDB :=
  (entries.foldl (fun d kv => d.insert (targetDir addr ++ kv.1) kv.2) (db.clear addr)).insert
    (commitPath addr) []

/-- Removing the rule set of one address without `/` leaves the directory of every other as
    it was. -/
theorem multiread_clear_ne {db : QubesDB} {a a' : Str} (ha : '/' ∉ a) (ha' : '/' ∉ a')
    (hne : a' ≠ a) : (db.clear a).multiread (targetDir a') = db.multiread (targetDir a') := by
  refine Dict.ext_items ?_
  simp only [multiread, clear, List.filter_filter]
  refine List.filter_congr fun kv _ => ?_
  cases hp : Str.startswith kv.1 (targetDir a')
  · rfl
  · have hq : Str.startswith kv.1 (targetDir a) = false := Bool.eq_false_iff.2 fun hq =>
      hne (eq_of_prefix_targetDir ha' ha (List.isPrefixOf_iff_prefix.1 hp)
        (List.isPrefixOf_iff_prefix.1 hq))
    simp [hq]

end QubesDB

/-- One operation of a writer on the store. -/
inductive StoreOp where
  /-- `rm /qubes-firewall/<addr>/`: the rule set of `addr` goes. -/
  | clear (addr : Str)
  /-- The write of `value` at `/qubes-firewall/<addr>/<leaf>`. -/
  | write (addr leaf value : Str)
  /-- The empty write to `/qubes-firewall/<addr>`, which ends an update. -/
  | commit (addr : Str)

namespace StoreOp

/-- The address whose rule set the operation changes. -/
def addr : StoreOp → Str
  | clear a | write a _ _ | commit a => a

/-- The path the watch reports for the operation. -/
def path : StoreOp → Str
  | clear a => targetDir a
  | write a leaf _ => targetDir a ++ leaf
  | commit a => commitPath a

/-- The store after the operation. -/
def apply : StoreOp → QubesDB → QubesDB
  | clear a, db => db.clear a
  | write a leaf v, db => db.insert (targetDir a ++ leaf) v
  | commit a, db => db.insert (commitPath a) []

/-- The addresses with an update in progress after the operation: the final write ends the
    update of its address, and the others begin or go on with one. -/
def pending : StoreOp → List Str → List Str
  | commit a, w => w.erase a
  | op, w => w.insert op.addr

/-- The operations of a writer's update of `addr` to `entries` (leaf, value). -/
def update (a : Str) (entries : List (Str × Str)) : List StoreOp :=
  clear a :: entries.map (fun kv => write a kv.1 kv.2) ++ [commit a]

/-- An operation for one address without `/` leaves the directory of every other as it
    was. -/
theorem multiread_apply_ne {op : StoreOp} {a' : Str} (ha : '/' ∉ op.addr) (ha' : '/' ∉ a')
    (hne : a' ≠ op.addr) (db : QubesDB) :
    (op.apply db).multiread (targetDir a') = db.multiread (targetDir a') := by
  cases op with
  | clear a => exact QubesDB.multiread_clear_ne ha ha' hne
  | write a leaf v =>
    exact QubesDB.multiread_insert fun h => hne (eq_of_prefix_targetDir ha' ha h (List.prefix_append _ _))
  | commit a => exact QubesDB.multiread_insert (targetDir_not_prefix_firewallDir ha)

/-- An operation keeps every other address's update in progress. -/
theorem mem_pending_of_ne {op : StoreOp} {a' : Str} {w : List Str} (hne : a' ≠ op.addr)
    (h : a' ∈ w) : a' ∈ op.pending w := by
  cases op with
  | commit a => exact (List.mem_erase_of_ne hne).2 h
  | clear a | write a _ _ => exact List.mem_insert_of_mem h

/-- An update made with no other move between its operations leaves the store as
    `QubesDB.commit` says. -/
theorem foldl_update (db : QubesDB) (a : Str) (entries : List (Str × Str)) :
    (update a entries).foldl (fun db op => op.apply db) db = db.commit a entries := by
  simp only [update, List.foldl_cons, List.foldl_append, List.foldl_map, List.foldl_nil, apply,
    QubesDB.commit]

end StoreOp

/-! ## Section 2: The steps of `main` -/

/-- Where `main` stands. -/
inductive Pc where
  /-- Before `init`. -/
  | start
  /-- After `init`: the scripts of `qubes-firewall.d` and the user script run, then
      `list_targets`. -/
  | listing
  /-- In the initial load, with the addresses still to handle. -/
  | sweep (todo : List Str)
  /-- In the watch loop, before `read_watch`. -/
  | loop
  /-- In the watch loop, before `handle_addr(addr)`. -/
  | handling (addr : Str)
  /-- Before `cleanup`. -/
  | cleanup
  /-- `main` has returned. -/
  | exited
  /-- `main` has raised an exception. -/
  | raised (e : PyExc)
  deriving DecidableEq

/-- The daemon: where `main` stands, its process, the store, whether the watch is
    registered, the events it has queued, the flag `terminate()` sets, and the addresses
    whose writers are in the middle of an update. -/
structure Daemon where
  pc : Pc
  sys : Sys
  db : QubesDB
  watching : Bool
  queue : List Str
  terminate_requested : Bool
  writing : List Str

/-- What a script that `run_firewall_dir` or `run_user_script` starts does to the filter
    state: any change to the chains the worker does not own.  The filter state is shared,
    and the worker owns its forward chain, with the jumps and the verdict it ends with, and
    the chains named `qbs-…`, as the names of its per-address chains mark them. -/
structure Script where
  /-- The filter state once the script has exited. -/
  run : Kernel → Kernel
  /-- The forward chains keep their jumps and final verdicts. -/
  forward : ∀ k f, (run k f).jumps = (k f).jumps ∧ (run k f).policy = (k f).policy
  /-- The chains named `qbs-…` keep their rules. -/
  owned : ∀ k f c, Str.startswith c (key "qbs-") = true → (run k f).chains c = (k f).chains c

/-- Which party moves next. -/
inductive Label where
  /-- `main` takes its next step. -/
  | main
  /-- A writer makes an operation on the store. -/
  | store (op : StoreOp)
  /-- The termination signal arrives. -/
  | signal
  /-- A script `main` started runs to its end. -/
  | script (sc : Script)

/-- The moves of a writer's update of `addr` to `entries`, with no other move between. -/
def Label.update (a : Str) (entries : List (Str × Str)) : List Label :=
  (StoreOp.update a entries).map .store

namespace Daemon

/-- The daemon as the service starts it: `main` not entered, no chain recorded, no
    command run, no watch. -/
def boot (k : Kernel) (db : QubesDB) : Daemon :=
  ⟨.start, ⟨k, fun _ => [], []⟩, db, false, [], false, []⟩

/-- `main` after a step of the worker: at `next` when it returns, at `onError e` when it
    raises `e`. -/
def after (d : Daemon) (r : EStateM.Result PyExc Sys Unit) (next : Pc) (onError : PyExc → Pc) :
    Daemon :=
  match r with
  | .ok _ s => { d with sys := s, pc := next }
  | .error e s => { d with sys := s, pc := onError e }

/-- Where `main` goes with the path `read_watch` returned: past a write below an address,
    to `handle_addr` of the address of a commit. -/
def watchTarget (p : Str) : Pc :=
  if p.count '/' > 2 then .loop
  else match getIdx (Str.split p '/') 2 with
    | .ok a => .handling a
    | .error e => .raised e

/-- Where `main` goes with what `list_targets` returned. -/
def sweepOf (targets : Except PyExc (List Str)) : Pc :=
  match targets with
  | .ok ts => .sweep ts
  | .error e => .raised e

theorem watchTarget_ne_start (p : Str) : watchTarget p ≠ .start := by
  unfold watchTarget
  split_ifs
  · nofun
  · split <;> nofun

theorem sweepOf_ne_start (targets : Except PyExc (List Str)) : sweepOf targets ≠ .start := by
  cases targets <;> nofun

/-- The event of a commit for an address without `/` leads `main` to handle that address. -/
theorem watchTarget_commitPath {a : Str} (ha : '/' ∉ a) :
    watchTarget (commitPath a) = .handling a := by
  have hcount : (commitPath a).count '/' = 2 := by
    rw [commitPath, List.count_append, List.count_eq_zero.2 ha]
    rfl
  rw [watchTarget, if_neg (by omega), commitPath, split_firewallDir, Str.split_of_not_mem ha]
  rfl

variable (o : Oracle) (b : Backend) (env : Env)

/-- One step of `main`.  Between `init` and `list_targets` `main` waits for the scripts it
    runs, whose moves are the run's `.script` labels; its own step there is `list_targets`.
    The initial load is outside the `try`, so an exception there ends `main`; in the watch
    loop only `OSError` is caught, and leads to `cleanup`. -/
def mainStep (d : Daemon) : Option Daemon :=
  match d.pc with
  | .start =>
    let d' := { d with terminate_requested := false }
    some (d'.after (b.init o d.sys) .listing .raised)
  | .listing => some { d with pc := sweepOf (list_targets d.db) }
  | .sweep (a :: todo) => some (d.after (handle_addr o b env d.db a d.sys) (.sweep todo) .raised)
  | .sweep [] => some { d with watching := true, pc := .loop }
  | .loop =>
    match d.queue with
    | [] => none
    | p :: q => some { d with queue := q, pc := watchTarget p }
  | .handling a =>
    some (d.after (handle_addr o b env d.db a d.sys) .loop fun e =>
      if e = .osError then .cleanup else .raised e)
  | .cleanup => some (d.after (b.cleanup o d.sys) .exited .raised)
  | .exited => none
  | .raised _ => none

/-- One move of a run. -/
def step (l : Label) (d : Daemon) : Daemon :=
  match l with
  | .main => (mainStep o b env d).getD d
  | .store op =>
    { d with db := op.apply d.db,
             queue := if d.watching then d.queue ++ [op.path] else d.queue,
             writing := op.pending d.writing }
  | .signal =>
    { d with terminate_requested := true,
             pc := match d.pc, d.queue with
               | .loop, [] => .cleanup
               | pc, _ => pc }
  | .script sc =>
    if d.pc = .listing then { d with sys := { d.sys with kernel := sc.run d.sys.kernel } } else d

/-- The daemon after a run. -/
def exec : List Label → Daemon → Daemon
  | [], d => d
  | l :: ls, d => exec ls (step o b env l d)

/-- The `handle_addr` call `main`'s next step makes, with the store it reads. -/
def nextCall (d : Daemon) : Option (Str × QubesDB) :=
  match d.pc with
  | .sweep (a :: _) => some (a, d.db)
  | .handling a => some (a, d.db)
  | _ => none

/-- The `handle_addr` calls of a run, in order, each with the store it reads. -/
def calls : List Label → Daemon → List (Str × QubesDB)
  | [], _ => []
  | l :: ls, d =>
    (match l with
      | .main => (nextCall d).toList
      | _ => []) ++ calls ls (step o b env l d)

theorem exec_cons (l : Label) (ls : List Label) (d : Daemon) :
    exec o b env (l :: ls) d = exec o b env ls (step o b env l d) := rfl

theorem calls_cons_main (ls : List Label) (d : Daemon) :
    calls o b env (.main :: ls) d = (nextCall d).toList ++ calls o b env ls (step o b env .main d) :=
  rfl

theorem calls_cons_store (op : StoreOp) (ls : List Label) (d : Daemon) :
    calls o b env (.store op :: ls) d = calls o b env ls (step o b env (.store op) d) := rfl

theorem calls_cons_signal (ls : List Label) (d : Daemon) :
    calls o b env (.signal :: ls) d = calls o b env ls (step o b env .signal d) := rfl

theorem calls_cons_script (sc : Script) (ls : List Label) (d : Daemon) :
    calls o b env (.script sc :: ls) d = calls o b env ls (step o b env (.script sc) d) := rfl

/-! ## Section 3: Runs -/

/-- A resolver configuration with no nameserver, and a resolver that knows no host. -/
def noNameservers : Env := ⟨[], fun _ _ => .ok []⟩

/-- The store once a writer has committed policy `accept` for `10.137.0.5`. -/
def acceptStore : QubesDB := QubesDB.commit Dict.empty (key "10.137.0.5") [(key "policy", key "accept")]

/-- The initial load handles `10.137.0.5`; a writer commits policy `drop` for it before
    `main` registers the watch; `main` registers the watch. -/
def commitBeforeWatch : Daemon :=
  exec Oracle.allOk .iptables noNameservers
    ([.main, .main, .main] ++ Label.update (key "10.137.0.5") [(key "policy", key "drop")] ++ [.main])
    (boot Kernel.fresh acceptStore)

/-- The update queues no event: `main` blocks in `read_watch` with no event pending, while
    the chain still holds the `ACCEPT` of the old rule set and the committed one translates
    to `DROP`. -/
theorem commit_before_watch_lost :
    commitBeforeWatch.pc = .loop ∧ commitBeforeWatch.queue = [] ∧
      (mainStep Oracle.allOk .iptables noNameservers commitBeforeWatch).isNone ∧
      (commitBeforeWatch.sys.kernel .four).chains (key "qbs-10-137-0-5") =
        some [key "-A qbs-10-137-0-5 -j ACCEPT"] ∧
      ((read_rules commitBeforeWatch.db (key "10.137.0.5")).bind fun rules =>
        Iptables.prepare_rules noNameservers (key "qbs-10-137-0-5") rules .four) =
        .ok (key "*filter\n-A qbs-10-137-0-5 -j DROP\nCOMMIT\n") := by
  decide

/-- The store once a writer has committed policy `accept` for `10.137.0.6`. -/
def acceptStoreSix : QubesDB := QubesDB.commit Dict.empty (key "10.137.0.6") [(key "policy", key "accept")]

/-- Without `notify-send`: the initial load installs `10.137.0.6`, `main` registers the
    watch, a writer commits for `10.137.0.5` a rule set without a policy, and `main` reads
    the events of the update, up to its final write. -/
def policyMissing : Daemon :=
  exec Oracle.noNotifySend .nftables noNameservers
    ([.main, .main, .main, .main] ++ Label.update (key "10.137.0.5") [(key "0000", key "action=accept")] ++
      [.main, .main, .main]) (boot Kernel.fresh acceptStoreSix)

/-- `main` after two more steps from `policyMissing`. -/
def policyMissingCleanup : Daemon :=
  exec Oracle.noNotifySend .nftables noNameservers [.main, .main] policyMissing

/-- The message about the missing policy raises `OSError` out of `handle_addr`.  `main`
    takes it for an interrupted `read_watch`, runs `cleanup` and returns: with no signal,
    the tables go, and with them the chain and the jump of `10.137.0.6` that the initial
    load installed. -/
theorem notify_send_missing_cleans_up :
    exceptionOf (handle_addr Oracle.noNotifySend .nftables noNameservers policyMissing.db
      (key "10.137.0.5") policyMissing.sys) = some .osError ∧
    policyMissing.pc = .handling (key "10.137.0.5") ∧
    (policyMissing.sys.kernel .four).jumps = [(key "10.137.0.6", key "qbs-10-137-0-6")] ∧
    policyMissingCleanup.pc = .exited ∧ (policyMissingCleanup.sys.kernel .four).jumps = [] ∧
    (policyMissingCleanup.sys.kernel .four).chains (key "qbs-10-137-0-6") = none := by
  decide

/-! ## Section 4: `terminate_requested` is never read -/

theorem after_terminate_requested (pc : Pc) (sys : Sys) (db : QubesDB) (w : Bool) (q : List Str)
    (tr t : Bool) (wr : List Str) (r : EStateM.Result PyExc Sys Unit) (next : Pc)
    (onError : PyExc → Pc) :
    (Daemon.mk pc sys db w q t wr).after r next onError =
      { (Daemon.mk pc sys db w q tr wr).after r next onError with terminate_requested := t } := by
  cases r <;> rfl

/-- Past `init`, no step of `main` reads `terminate_requested` or changes it: `main` steps
    alike whatever the flag holds. -/
theorem mainStep_terminate_requested (d : Daemon) (t : Bool) (h : d.pc ≠ .start) :
    mainStep o b env { d with terminate_requested := t } =
      (mainStep o b env d).map fun d' => { d' with terminate_requested := t } := by
  rcases d with ⟨pc, sys, db, w, q, tr, wr⟩
  cases pc with
  | start => exact absurd rfl h
  | sweep todo =>
    cases todo <;> simp only [mainStep, after_terminate_requested _ _ _ _ _ tr t, Option.map_some']
  | loop => cases q <;> rfl
  | _ => simp only [mainStep, after_terminate_requested _ _ _ _ _ tr t, Option.map_some',
      Option.map_none']

/-- After the initial load of an empty store and the watch: a writer commits a rule set
    for `10.137.0.5`, `main` reads the events of the update, up to its final write, and the
    termination signal arrives. -/
def signalBeforeHandle : Daemon :=
  exec Oracle.allOk .iptables noNameservers
    ([.main, .main, .main] ++ Label.update (key "10.137.0.5") [(key "policy", key "drop")] ++
      [.main, .main, .main, .signal]) (boot Kernel.fresh Dict.empty)

/-- `terminate()` sets the flag, `main` still calls `handle_addr` and then blocks again in
    `read_watch`: it never reaches `cleanup`. -/
theorem signal_before_handle_ignored :
    signalBeforeHandle.terminate_requested = true ∧
      calls Oracle.allOk .iptables noNameservers [.main] signalBeforeHandle =
        [(key "10.137.0.5", signalBeforeHandle.db)] ∧
      (step Oracle.allOk .iptables noNameservers .main signalBeforeHandle).pc = .loop ∧
      (step Oracle.allOk .iptables noNameservers .main signalBeforeHandle).queue = [] ∧
      (mainStep Oracle.allOk .iptables noNameservers
        (step Oracle.allOk .iptables noNameservers .main signalBeforeHandle)).isNone := by
  decide

end Daemon

end QubesFirewall
