import QubesFirewall.NftablesMeaning

/-! # The kernel's filter state and the commands that change it

    The worker changes the packet filter only through external commands: `iptables` (or
    `ip6tables`) with arguments, `iptables-restore -n` fed a program, and `nft -f` fed a
    program.  This module says what each does to the part of the filter state the worker
    owns, for the commands and programs the worker writes: per family, the jumps of the
    forward chain that match a source address, and the rules of every other chain.

    How a command ends (its exit status, what it prints, or a failure to start) is not the
    kernel's to say here: an `Oracle` decides it from the commands run before, and only a
    command that exits with status zero changes the state.

    A chain's rules are kept as the lines of the program that put them there.  Of the
    `iptables-restore` format only `-A <chain> ...` lines are read; of `nft`, the
    `flush chain` and `delete table` commands and the table and chain blocks.  The forward
    chain is kept as its source-matched jumps and the verdict it ends with: the target of
    `-A QBS-FORWARD -j <target>` for the legacy backend, the `policy` of the nftables chain.
    Its `type` line, which hooks it, and its `ct state established,related accept`, which a
    new packet does not match, are not kept.
-/

namespace QubesFirewall

/-! ## Section 1: Commands and how they end -/

/-- A command the worker runs. -/
inductive Cmd where
  /-- `iptables <args>`, or `ip6tables <args>` for IPv6, run by `check_call`. -/
  | ipt (family : Family) (args : List Str)
  /-- `iptables-restore -n`, or `ip6tables-restore -n` for IPv6, fed a program. -/
  | iptRestore (family : Family) (input : Str)
  /-- `nft -f /dev/stdin` fed a program. -/
  | nft (input : Str)
  /-- `notify-send -t 3000 <msg>`. -/
  | notifySend (msg : Str)
  deriving DecidableEq

/-- How a command ends: status zero, a non-zero status with what it printed, or no start. -/
inductive Outcome where
  | ok
  | fail (output : Str)
  | noStart
  deriving DecidableEq

/-- What decides how a command ends, from the commands run before it. -/
abbrev Oracle := List Cmd → Cmd → Outcome

/-- The oracle under which every command exits with status zero. -/
def Oracle.allOk : Oracle := fun _ _ => .ok

/-- The oracle of a system without `notify-send`: it does not start, and every other
    command exits with status zero. -/
def Oracle.noNotifySend : Oracle := fun _ c =>
  match c with
  | .notifySend _ => .noStart
  | _ => .ok

/-- The oracle of a run where every command exits with status zero, except that the
    backend refuses the programs `reject` names, printing the text it gives. -/
def Oracle.rejecting (reject : Str → Option Str) : Oracle := fun _ c =>
  match c with
  | .iptRestore _ P => (reject P).elim .ok .fail
  | .nft P => (reject P).elim .ok .fail
  | _ => .ok

/-! ## Section 2: Tables -/

/-- One family's part of the filter state: the source-matched jumps of the forward chain,
    first rule first, the rules of every other chain (`none`: no such chain), and the
    verdict the forward chain gives a packet no jump decides (`none`: it returns it to the
    kernel's own `FORWARD` chain). -/
structure Table where
  jumps : List (Str × Str)
  chains : Str → Option (List Str)
  policy : Option Str

namespace Table

/-- A table with no jump and no chain. -/
def empty : Table := ⟨[], fun _ => none, none⟩

/-- The table with the rules of chain `c` set to `v`. -/
def setChain (t : Table) (c : Str) (v : Option (List Str)) : Table :=
  { t with chains := fun c' => if c' = c then v else t.chains c' }

@[simp] theorem setChain_jumps (t : Table) (c : Str) (v : Option (List Str)) :
    (t.setChain c v).jumps = t.jumps := rfl

@[simp] theorem setChain_policy (t : Table) (c : Str) (v : Option (List Str)) :
    (t.setChain c v).policy = t.policy := rfl

@[simp] theorem setChain_self (t : Table) (c : Str) (v : Option (List Str)) :
    (t.setChain c v).chains c = v := if_pos rfl

theorem setChain_ne (t : Table) {c c' : Str} (v : Option (List Str)) (h : c' ≠ c) :
    (t.setChain c v).chains c' = t.chains c' := if_neg h

/-- Add a rule at the end of a chain, made if absent. -/
def append (t : Table) (c r : Str) : Table := t.setChain c (some ((t.chains c).getD [] ++ [r]))

/-- Empty a chain that exists. -/
def flush (t : Table) (c : Str) : Table := t.setChain c ((t.chains c).map fun _ => [])

/-- The name of the forward chain of the legacy backend. -/
def qbsForward : Str := key "QBS-FORWARD"

/-- `iptables <args>`, for the arguments the worker passes: `-N c` makes a chain, `-F c`
    empties one (`-F QBS-FORWARD` drops every jump and the final rule), `-X c` deletes one,
    `-A QBS-FORWARD -j v` adds a rule for every packet after the others, which decides when
    no rule before it did, and `-I QBS-FORWARD -s a -j c` puts a jump first. -/
def ipt (t : Table) : List Str → Table
  | [op, c] =>
    if op = key "-N" then t.setChain c (some [])
    else if op = key "-F" then
      (if c = qbsForward then { t with jumps := [], policy := none } else t.flush c)
    else if op = key "-X" then t.setChain c none
    else t
  | [op, fwd, j, v] =>
    if op = key "-A" ∧ fwd = qbsForward ∧ j = key "-j" then { t with policy := t.policy.or (some v) }
    else t
  | [op, fwd, s, a, j, c] =>
    if op = key "-I" ∧ fwd = qbsForward ∧ s = key "-s" ∧ j = key "-j" then
      { t with jumps := (a, c) :: t.jumps }
    else t
  | _ => t

/-- One line of an `iptables-restore -n` program: `-A <c> ...` adds itself to `c`. -/
def restoreLine (t : Table) (line : Str) : Table :=
  match Str.split line ' ' with
  | a :: c :: _ => if a = key "-A" then t.append c line else t
  | _ => t

/-- `iptables-restore -n`: the lines of the program in order; no chain is flushed first. -/
def restore (t : Table) (program : Str) : Table :=
  (Str.split program '\n').foldl restoreLine t

theorem ext_chains {t u : Table} (hj : t.jumps = u.jumps) (hp : t.policy = u.policy)
    (hc : ∀ c, t.chains c = u.chains c) : t = u := by
  cases t
  cases u
  cases hj
  cases hp
  congr 1
  exact funext hc

theorem setChain_setChain (t : Table) (c : Str) (v w : Option (List Str)) :
    (t.setChain c v).setChain c w = t.setChain c w :=
  ext_chains rfl rfl fun c' => by
    by_cases h : c' = c
    · rw [h, setChain_self, setChain_self]
    · rw [setChain_ne _ _ h, setChain_ne _ _ h, setChain_ne _ _ h]

theorem setChain_of_eq (t : Table) {c : Str} {v : Option (List Str)} (h : t.chains c = v) :
    t.setChain c v = t :=
  ext_chains rfl rfl fun c' => by
    by_cases hc : c' = c
    · rw [hc, setChain_self, h]
    · rw [setChain_ne _ _ hc]

theorem ipt_new (t : Table) (c : Str) : t.ipt [key "-N", c] = t.setChain c (some []) := rfl

theorem ipt_insert (t : Table) (a c : Str) :
    t.ipt [key "-I", key "QBS-FORWARD", key "-s", a, key "-j", c] =
      { t with jumps := (a, c) :: t.jumps } :=
  rfl

theorem ipt_flush (t : Table) {c : Str} (h : c ≠ qbsForward) : t.ipt [key "-F", c] = t.flush c := by
  rw [ipt, if_neg (by decide), if_pos rfl, if_neg h]

theorem ipt_flush_forward (t : Table) :
    t.ipt [key "-F", key "QBS-FORWARD"] = { t with jumps := [], policy := none } := rfl

theorem ipt_append_drop (t : Table) :
    t.ipt [key "-A", key "QBS-FORWARD", key "-j", key "DROP"] =
      { t with policy := t.policy.or (some (key "DROP")) } :=
  rfl

theorem restoreLine_append {t : Table} {line c : Str} {rest : List Str}
    (h : Str.split line ' ' = key "-A" :: c :: rest) : t.restoreLine line = t.append c line := by
  rw [restoreLine, h]
  exact if_pos rfl

theorem restoreLine_single {t : Table} {line w : Str} (h : Str.split line ' ' = [w]) :
    t.restoreLine line = t := by
  rw [restoreLine, h]

end Table

/-- The filter state: a table per family. -/
abbrev Kernel := Family → Table

namespace Kernel

/-- The filter state with one family's table changed by `g`. -/
def modify (k : Kernel) (f : Family) (g : Table → Table) : Kernel :=
  fun f' => if f' = f then g (k f) else k f'

@[simp] theorem modify_self (k : Kernel) (f : Family) (g : Table → Table) :
    k.modify f g f = g (k f) := if_pos rfl

theorem modify_ne (k : Kernel) {f f' : Family} (g : Table → Table) (h : f' ≠ f) :
    k.modify f g f' = k f' := if_neg h

/-- A filter state with no jump and no chain. -/
def fresh : Kernel := fun _ => Table.empty

end Kernel

/-! ## Section 3: `nft` programs -/

/-- Where a reader of an `nft` program stands: at the top, in the block of a family's
    table, or in the block of one of its chains. -/
inductive NftAt where
  | top
  | table (f : Family)
  | chain (f : Family) (c : Str)

/-- The family an `nft` family word names. -/
def familyWord (w : Str) : Option Family :=
  if w = key "ip" then some .four else if w = key "ip6" then some .six else none

/-- A statement in the block of chain `c`: in `forward`, a jump `<fam> saddr <a> jump <c'>`
    comes after the others, and `policy <v>;` sets the verdict of a packet no rule decides;
    in any other chain the line is its last rule. -/
def chainStmt (k : Kernel) (f : Family) (c line : Str) : Kernel :=
  if c = key "forward" then
    match Nftables.words line with
    | [p, v] =>
      if p = key "policy" then k.modify f fun t => { t with policy := some (v.takeWhile (· ≠ ';')) }
      else k
    | [_, s, a, j, c'] =>
      if s = key "saddr" ∧ j = key "jump" then k.modify f fun t => { t with jumps := t.jumps ++ [(a, c')] }
      else k
    | _ => k
  else k.modify f (·.append c line)

/-- One line of an `nft -f` program: at the top `flush chain <fam> qubes-firewall <c>`,
    `delete table <fam> qubes-firewall` or the opening of a table block; in a table block
    the opening of a chain block, which makes the chain, or its end; in a chain block its
    end, or a statement. -/
def nftLine : NftAt × Kernel → Str → NftAt × Kernel
  | (.top, k), line =>
    match Nftables.words line with
    | [a, b, fam, t, c] =>
      if a = key "flush" ∧ b = key "chain" ∧ t = key "qubes-firewall" then
        (.top, (familyWord fam).elim k fun f => k.modify f (·.flush c))
      else (.top, k)
    | [a, b, c, d] =>
      if a = key "table" ∧ c = key "qubes-firewall" ∧ d = key "\x7b" then
        ((familyWord b).elim .top .table, k)
      else if a = key "delete" ∧ b = key "table" ∧ d = key "qubes-firewall" then
        (.top, (familyWord c).elim k fun f => k.modify f fun _ => Table.empty)
      else (.top, k)
    | _ => (.top, k)
  | (.table f, k), line =>
    match Nftables.words line with
    | [a, c, o] =>
      if a = key "chain" ∧ o = key "\x7b" then
        (.chain f c, if c = key "forward" then k
          else k.modify f fun t => t.setChain c (some ((t.chains c).getD [])))
      else (.table f, k)
    | [e] => if e = key "\x7d" then (.top, k) else (.table f, k)
    | _ => (.table f, k)
  | (.chain f c, k), line =>
    if Nftables.words line = [key "\x7d"] then (.table f, k)
    else if Nftables.words line = [] then (.chain f c, k)
    else (.chain f c, chainStmt k f c line)

/-- `nft -f`: the lines of the program in order, from the top. -/
def Kernel.nft (k : Kernel) (program : Str) : Kernel :=
  ((Str.split program '\n').foldl nftLine (.top, k)).2

section NftLine

variable {k : Kernel} {f : Family} {line c : Str}

theorem familyWord_ip_match (f : Family) : familyWord (ip_match f) = some f := by
  cases f <;> rfl

theorem nftLine_flush (h : Nftables.words line =
      [key "flush", key "chain", ip_match f, key "qubes-firewall", c]) :
    nftLine (.top, k) line = (.top, k.modify f (·.flush c)) := by
  rw [nftLine, h]
  dsimp only
  rw [if_pos ⟨rfl, rfl, rfl⟩, familyWord_ip_match]
  rfl

theorem nftLine_table (h : Nftables.words line = [key "table", ip_match f, key "qubes-firewall", key "\x7b"]) :
    nftLine (.top, k) line = (.table f, k) := by
  rw [nftLine, h]
  dsimp only
  rw [if_pos ⟨rfl, rfl, rfl⟩, familyWord_ip_match]
  rfl

theorem nftLine_delete (h : Nftables.words line = [key "delete", key "table", ip_match f, key "qubes-firewall"]) :
    nftLine (.top, k) line = (.top, k.modify f fun _ => Table.empty) := by
  rw [nftLine, h]
  dsimp only
  rw [if_neg fun e => absurd e.1 (by decide), if_pos ⟨rfl, rfl, rfl⟩, familyWord_ip_match]
  rfl

theorem nftLine_top_blank (h : Nftables.words line = []) : nftLine (.top, k) line = (.top, k) := by
  rw [nftLine, h]

theorem nftLine_open_chain (h : Nftables.words line = [key "chain", c, key "\x7b"])
    (hc : c ≠ key "forward") :
    nftLine (.table f, k) line =
      (.chain f c, k.modify f fun t => t.setChain c (some ((t.chains c).getD []))) := by
  rw [nftLine, h]
  dsimp only
  rw [if_pos ⟨rfl, rfl⟩, if_neg hc]

theorem nftLine_open_forward (h : Nftables.words line = [key "chain", key "forward", key "\x7b"]) :
    nftLine (.table f, k) line = (.chain f (key "forward"), k) := by
  rw [nftLine, h]
  dsimp only
  rw [if_pos ⟨rfl, rfl⟩, if_pos rfl]

theorem nftLine_close_table (h : Nftables.words line = [key "\x7d"]) :
    nftLine (.table f, k) line = (.top, k) := by
  rw [nftLine, h]
  exact if_pos rfl

theorem nftLine_close_chain (h : Nftables.words line = [key "\x7d"]) :
    nftLine (.chain f c, k) line = (.table f, k) := by
  rw [nftLine, h, if_pos rfl]

theorem nftLine_rule (h : Nftables.words line ≠ [key "\x7d"]) (h' : Nftables.words line ≠ [])
    (hc : c ≠ key "forward") : nftLine (.chain f c, k) line = (.chain f c, k.modify f (·.append c line)) := by
  rw [nftLine, if_neg h, if_neg h', chainStmt, if_neg hc]

theorem nftLine_chain_blank (h : Nftables.words line = []) :
    nftLine (.chain f c, k) line = (.chain f c, k) := by
  rw [nftLine, h, if_neg (by decide), if_pos rfl]

theorem nftLine_jump {w a c' : Str}
    (h : Nftables.words line = [w, key "saddr", a, key "jump", c']) :
    nftLine (.chain f (key "forward"), k) line =
      (.chain f (key "forward"), k.modify f fun t => { t with jumps := t.jumps ++ [(a, c')] }) := by
  rw [nftLine, h, if_neg (by simp), if_neg (by simp), chainStmt, if_pos rfl, h]
  dsimp only
  rw [if_pos ⟨rfl, rfl⟩]

end NftLine

/-! ## Section 4: What a command does -/

/-- What a command that exits with status zero does to the filter state. -/
def Kernel.exec (k : Kernel) : Cmd → Kernel
  | .ipt f args => k.modify f (·.ipt args)
  | .iptRestore f program => k.modify f (·.restore program)
  | .nft program => k.nft program
  | .notifySend _ => k

end QubesFirewall
