import QubesFirewall.Daemon
import QubesFirewall.Shape

/-! # What the worker's programs do to the filter state

    The programs the worker writes, run by the tools as `Kernel` reads them: the legacy
    program appends its `-A` lines to its chain, the nftables program flushes its chain and
    fills it with the statement lines of its block, and `create_chain`'s program makes the
    chain and adds a jump to it at the end of `forward`.  Each law holds for programs of
    the shape `AppendsOnlyTo` or `FillsOnly` describes, which `prepare_rules` emits for
    values without line breaks (legacy) or of `nft` value characters (nftables).
-/

namespace QubesFirewall

/-- The rules a program of the backend puts in `chain`: the legacy program's lines
    `-A <chain> ...`, and the lines of the nftables program's block for the chain that hold
    a word. -/
def Backend.chainRules : Backend → Str → Str → List Str
  | .iptables, chain, P =>
    (Str.split P '\n').filter fun l => Str.startswith l (key "-A " ++ chain ++ [' '])
  | .nftables, chain, P => (Nftables.blockStatements chain P).filter fun l => Nftables.words l ≠ []

/-- How a backend writes the verdict of an action: the legacy targets are in capitals. -/
def Backend.verdictOf : Backend → Str → Str
  | .iptables, a => Str.upper a
  | .nftables, a => a

theorem Kernel.modify_modify (k : Kernel) (f : Family) (g h : Table → Table) :
    (k.modify f g).modify f h = k.modify f (h ∘ g) :=
  funext fun f' => by
    by_cases hf : f' = f
    · subst hf
      simp only [Kernel.modify_self, Function.comp_apply]
    · simp only [Kernel.modify_ne _ _ hf]

theorem Kernel.modify_congr (k : Kernel) {f : Family} {g h : Table → Table} (e : g (k f) = h (k f)) :
    k.modify f g = k.modify f h :=
  funext fun f' => by unfold Kernel.modify; split <;> simp_all

theorem Kernel.modify_of_eq (k : Kernel) {f : Family} {g : Table → Table} (h : g (k f) = k f) :
    k.modify f g = k :=
  funext fun f' => by
    by_cases hf : f' = f
    · subst hf
      rw [Kernel.modify_self, h]
    · rw [Kernel.modify_ne _ _ hf]

theorem OneWord.no_space {s : Str} (h : OneWord s) : ' ' ∉ s := fun hs => h ' ' hs (by decide)

theorem OneWord.no_newline {s : Str} (h : OneWord s) : '\n' ∉ s := fun hs => h '\n' hs (by decide)

/-! ## Section 1: The legacy program -/

section Legacy

variable {c : Str}

theorem split_appendLine (hc : ' ' ∉ c) {l : Str}
    (h : Str.startswith l (key "-A " ++ c ++ [' ']) = true) :
    ∃ rest, Str.split l ' ' = key "-A" :: c :: rest := by
  obtain ⟨r, rfl⟩ := List.isPrefixOf_iff_prefix.1 h
  refine ⟨Str.split r ' ', ?_⟩
  have e : key "-A " ++ c ++ [' '] ++ r = key "-A" ++ ' ' :: (c ++ ' ' :: r) := by simp [key]
  rw [e, Str.split_append_cons, Str.split_append_cons, Str.split_of_not_mem hc]
  rfl

/-- Lines `-A <c> ...` add themselves to `c`, in order. -/
theorem foldl_restoreLine (hc : ' ' ∉ c) :
    ∀ {body : List Str} {t : Table} {r₀ : List Str}, t.chains c = some r₀ →
      (∀ l ∈ body, Str.startswith l (key "-A " ++ c ++ [' ']) = true) →
      body.foldl Table.restoreLine t = t.setChain c (some (r₀ ++ body))
  | [], t, r₀, ht, _ => by rw [List.foldl_nil, List.append_nil, Table.setChain_of_eq t ht]
  | l :: body, t, r₀, ht, hb => by
    obtain ⟨rest, hl⟩ := split_appendLine hc (hb l (List.mem_cons_self _ _))
    rw [List.foldl_cons, Table.restoreLine_append hl,
      foldl_restoreLine hc (by rw [Table.append, Table.setChain_self, ht])
        fun l' h' => hb l' (List.mem_cons_of_mem _ h'),
      Table.append, Table.setChain_setChain]
    simp

/-- A program that only appends to `c` puts its `-A` lines at the end of `c`. -/
theorem restore_appendsOnly {P : Str} (h : AppendsOnlyTo c P) {t : Table} {r₀ : List Str}
    (ht : t.chains c = some r₀) :
    t.restore P = t.setChain c (some (r₀ ++ Backend.iptables.chainRules c P)) := by
  obtain ⟨hw, body, hs, hb⟩ := h
  have hf : Str.startswith (key "*filter") (key "-A " ++ c ++ [' ']) = false := rfl
  have hC : Str.startswith (key "COMMIT") (key "-A " ++ c ++ [' ']) = false := rfl
  have hn : Str.startswith [] (key "-A " ++ c ++ [' ']) = false := rfl
  have hb' : body.filter (fun l => Str.startswith l (key "-A " ++ c ++ [' '])) = body :=
    List.filter_eq_self.2 hb
  have hrules : Backend.iptables.chainRules c P = body := by
    simp only [Backend.chainRules, hs, List.filter_cons, List.filter_append, hf, hC, hn, hb']
    simp
  rw [Table.restore, hs, List.foldl_cons,
    Table.restoreLine_single (show Str.split (key "*filter") ' ' = [key "*filter"] from rfl),
    List.foldl_append, foldl_restoreLine hw.no_space ht hb, hrules]
  rfl

end Legacy

/-! ## Section 2: The nftables programs -/

section Nft

open Nftables

theorem words_word_of {w : Str} (hw : w ≠ []) (hs : ' ' ∉ w) : words w = [w] := by
  rw [words, Str.split_of_not_mem hs]
  simp [hw]

/-- Without `{`, each `}` lowers the brace depth by one. -/
theorem braceDepth_add_count : ∀ {s : Str}, '\x7b' ∉ s → ∀ {d e : Nat},
    braceDepth d s = some e → e + s.count '\x7d' = d
  | [], _, d, e, h => by cases h; rfl
  | x :: s, hs, d, e, h => by
    have hx : x ≠ '\x7b' := fun hx => hs (hx ▸ List.mem_cons_self x s)
    have hs' : '\x7b' ∉ s := fun h' => hs (List.mem_cons_of_mem x h')
    simp only [braceDepth, if_neg hx] at h
    by_cases hb : x = '\x7d'
    · subst hb
      rw [if_pos rfl] at h
      cases d with
      | zero => cases h
      | succ d =>
        rw [List.count_cons_self, ← Nat.add_assoc, braceDepth_add_count hs' h]
    · rw [if_neg hb] at h
      rw [List.count_cons_of_ne (Ne.symm hb), braceDepth_add_count hs' h]

/-- A plain statement is not a lone `}`. -/
theorem Nftables.Plain.words_ne_close {st : Str} (h : Plain st) : words st ≠ [key "\x7d"] := by
  intro hw
  have hmem : key "\x7d" ∈ Str.split st ' ' := (List.mem_filter.1 (hw ▸ List.mem_singleton_self _)).1
  have hopen : '\x7b' ∉ st := fun ho => by
    obtain ⟨x, hx, hox⟩ := @Str.exists_mem_split '\x7b' ' ' (by decide) st ho
    have hxw : x ∈ words st := List.mem_filter.2 ⟨hx, by simpa using List.ne_nil_of_mem hox⟩
    rw [hw, List.mem_singleton] at hxw
    subst hxw
    exact absurd hox (by decide)
  have hcount := braceDepth_add_count hopen (h.2 0)
  have hpos : 0 < st.count '\x7d' := List.count_pos_iff.2 (Str.subset_of_mem_split hmem (by decide))
  omega

theorem words_indent (st : Str) : words ("   ".toList ++ st) = words st := by
  rw [show "   ".toList ++ st = ' ' :: ' ' :: ' ' :: st from rfl, words_space_cons,
    words_space_cons, words_space_cons]

/-- The statement lines of a chain block add themselves to the chain, in order, those that
    hold a word. -/
theorem foldl_nftLine_rules {f : Family} {c : Str} (hc : c ≠ key "forward") :
    ∀ {lines : List Str} {k : Kernel} {r : List Str}, (k f).chains c = some r →
      (∀ l ∈ lines, words l ≠ [key "\x7d"]) →
      lines.foldl nftLine (.chain f c, k) =
        (.chain f c, k.modify f (·.setChain c (some (r ++ lines.filter (words · ≠ [])))))
  | [], k, r, hk, _ => by
    rw [List.foldl_nil, List.filter_nil, List.append_nil, Kernel.modify_of_eq k (Table.setChain_of_eq _ hk)]
  | l :: lines, k, r, hk, hl => by
    have hrest := fun l' h' => hl l' (List.mem_cons_of_mem l h')
    rw [List.foldl_cons]
    by_cases hb : words l = []
    · rw [nftLine_chain_blank hb, foldl_nftLine_rules hc hk hrest,
        List.filter_cons_of_neg (by simpa using hb)]
    · rw [nftLine_rule (hl l (List.mem_cons_self l lines)) hb hc,
        foldl_nftLine_rules hc (r := r ++ [l]) (by simp [Table.append, hk]) hrest,
        Kernel.modify_modify, List.filter_cons_of_pos (by simpa using hb)]
      refine congrArg (Prod.mk _) (congrArg (k.modify f) (funext fun t => ?_))
      simp [Table.append, Table.setChain_setChain]

theorem words_flushLine (f : Family) {c : Str} (hc : c ≠ []) (hs : ' ' ∉ c) :
    words ("flush chain ".toList ++ ip_match f ++ " qubes-firewall ".toList ++ c) =
      [key "flush", key "chain", ip_match f, key "qubes-firewall", c] := by
  have e : "flush chain ".toList ++ ip_match f ++ " qubes-firewall ".toList ++ c =
      ("flush chain ".toList ++ ip_match f ++ " qubes-firewall".toList) ++ ' ' :: c := by simp
  rw [e, words_append_space, words_word_of hc hs]
  cases f <;> rfl

theorem words_tableLine (f : Family) :
    words ("table ".toList ++ ip_match f ++ " qubes-firewall \x7b".toList) =
      [key "table", ip_match f, key "qubes-firewall", key "\x7b"] := by
  cases f <;> rfl

theorem words_chainLine {c : Str} (hc : c ≠ []) (hs : ' ' ∉ c) :
    words ("  chain ".toList ++ c ++ " \x7b".toList) = [key "chain", c, key "\x7b"] := by
  have e : "  chain ".toList ++ c ++ " \x7b".toList = ("  chain".toList ++ ' ' :: c) ++ ' ' :: key "\x7b" := by
    simp [key]
  rw [e, words_append_space, words_append_space, words_word_of hc hs]
  rfl

/-- A program that only flushes and fills `c` leaves in `c` the statement lines of its
    block, whatever `c` held. -/
theorem nft_fillsOnly {f : Family} {c P : Str} (h : FillsOnly f c P) (hc : c ≠ [])
    (hfwd : c ≠ key "forward") (k : Kernel) :
    k.nft P = k.modify f (·.setChain c (some (Backend.nftables.chainRules c P))) := by
  obtain ⟨hw, stmts, rfl, hs⟩ := h
  have hnl : ∀ st ∈ stmts, '\n' ∉ st := fun st hst hn => (hs st hst).1 '\n' hn (by decide)
  have hlines : ∀ l ∈ Str.split ("   ".toList ++ Str.join "\n   ".toList stmts) '\n',
      words l ≠ [key "\x7d"] := by
    by_cases h0 : stmts = []
    · subst h0
      intro l hl
      rw [show Str.split ("   ".toList ++ Str.join "\n   ".toList []) '\n' = ["   ".toList] from rfl,
        List.mem_singleton] at hl
      subst hl
      decide
    · rw [Nftables.split_indented h0 hnl]
      intro l hl
      obtain ⟨st, hst, rfl⟩ := List.mem_map.1 hl
      rw [words_indent]
      exact (hs st hst).words_ne_close
  have hflush : (((k.modify f (·.flush c)).modify f fun t =>
      t.setChain c (some ((t.chains c).getD []))) f).chains c = some [] := by
    simp only [Kernel.modify_self, Table.setChain_self, Table.flush]
    cases (k f).chains c <;> rfl
  unfold Kernel.nft
  rw [Nftables.split_chainProgram hw.no_newline, List.foldl_cons,
    nftLine_flush (words_flushLine f hc hw.no_space), List.foldl_cons,
    nftLine_table (words_tableLine f), List.foldl_cons,
    nftLine_open_chain (words_chainLine hc hw.no_space) hfwd, List.foldl_append,
    foldl_nftLine_rules hfwd hflush hlines, List.foldl_cons, nftLine_close_chain (show words "  \x7d".toList = [key "\x7d"] from rfl),
    List.foldl_cons, nftLine_close_table (show words "\x7d".toList = [key "\x7d"] from rfl), List.foldl_cons, nftLine_top_blank (show words [] = [] from rfl),
    List.foldl_nil, Backend.chainRules, Nftables.blockStatements_chainProgram hw.no_newline hnl,
    Kernel.modify_modify, Kernel.modify_modify]
  refine congrArg (k.modify f) (funext fun t => ?_)
  simp [Table.flush, Table.setChain_setChain]

/-- What making chain `c` for traffic from `a` does to a table: the chain is made (the legacy
    `-N` empties it, the nftables block keeps what it held) and a jump to it from `a` is
    added, first for the legacy backend, last for nftables. -/
def Backend.makeChain : Backend → Str → Str → Table → Table
  | .iptables, a, c, t => { t.setChain c (some []) with jumps := (a, c) :: t.jumps }
  | .nftables, a, c, t =>
    { t.setChain c (some ((t.chains c).getD [])) with jumps := t.jumps ++ [(a, c)] }

theorem split_createProgram (f : Family) {a c : Str} (ha : '\n' ∉ a) (hc : '\n' ∉ c) :
    Str.split (createProgram f a c) '\n' =
      ["table ".toList ++ ip_match f ++ " qubes-firewall \x7b".toList,
        "  chain ".toList ++ c ++ " \x7b".toList, "  \x7d".toList, "  chain forward \x7b".toList,
        "    ".toList ++ ip_match f ++ " saddr ".toList ++ a ++ " jump ".toList ++ c,
        "  \x7d".toList, "\x7d".toList, []] := by
  have hip : '\n' ∉ ip_match f := by cases f <;> decide
  have e : createProgram f a c =
      ("table ".toList ++ ip_match f ++ " qubes-firewall \x7b".toList) ++ '\n' ::
        (("  chain ".toList ++ c ++ " \x7b".toList) ++ '\n' :: ("  \x7d".toList ++ '\n' ::
          ("  chain forward \x7b".toList ++ '\n' ::
            (("    ".toList ++ ip_match f ++ " saddr ".toList ++ a ++ " jump ".toList ++ c) ++ '\n' ::
              ("  \x7d".toList ++ '\n' :: ("\x7d".toList ++ '\n' :: [])))))) := by
    simp only [createProgram, List.append_assoc, List.cons_append]
    rfl
  rw [e, Str.split_append_cons, Str.split_append_cons, Str.split_append_cons,
    Str.split_append_cons, Str.split_append_cons, Str.split_append_cons, Str.split_append_cons,
    Str.split_of_not_mem (s := "table ".toList ++ ip_match f ++ " qubes-firewall \x7b".toList)
      (by simp [hip]),
    Str.split_of_not_mem (s := "  chain ".toList ++ c ++ " \x7b".toList) (by simp [hc]),
    Str.split_of_not_mem
      (s := "    ".toList ++ ip_match f ++ " saddr ".toList ++ a ++ " jump ".toList ++ c)
      (by simp [hip, ha, hc])]
  rfl

theorem words_jumpLine (f : Family) {a c : Str} (ha : a ≠ []) (has : ' ' ∉ a) (hc : c ≠ [])
    (hcs : ' ' ∉ c) :
    words ("    ".toList ++ ip_match f ++ " saddr ".toList ++ a ++ " jump ".toList ++ c) =
      [ip_match f, key "saddr", a, key "jump", c] := by
  have e : "    ".toList ++ ip_match f ++ " saddr ".toList ++ a ++ " jump ".toList ++ c =
      ("    ".toList ++ ip_match f ++ " saddr".toList) ++ ' ' :: (a ++ ' ' :: (key "jump" ++ ' ' :: c)) := by
    simp [key]
  rw [e, words_append_space, words_append_space, words_append_space, words_word_of ha has,
    words_word_of hc hcs]
  cases f <;> rfl

/-- `create_chain`'s program makes the chain if absent and adds a jump to it for traffic from
    `a` at the end of `forward`. -/
theorem nft_createProgram (f : Family) {a c : Str} (ha : a ≠ []) (ha' : OneWord a) (hc : c ≠ [])
    (hc' : OneWord c) (hfwd : c ≠ key "forward") (k : Kernel) :
    k.nft (createProgram f a c) = k.modify f (Backend.nftables.makeChain a c) := by
  unfold Kernel.nft
  rw [split_createProgram f ha'.no_newline hc'.no_newline, List.foldl_cons,
    nftLine_table (words_tableLine f), List.foldl_cons,
    nftLine_open_chain (words_chainLine hc hc'.no_space) hfwd, List.foldl_cons,
    nftLine_close_chain (show words "  \x7d".toList = [key "\x7d"] from rfl), List.foldl_cons,
    nftLine_open_forward (show words "  chain forward \x7b".toList = [key "chain", key "forward",
      key "\x7b"] from rfl), List.foldl_cons,
    nftLine_jump (words_jumpLine f ha ha'.no_space hc hc'.no_space), List.foldl_cons,
    nftLine_close_chain (show words "  \x7d".toList = [key "\x7d"] from rfl), List.foldl_cons,
    nftLine_close_table (show words "\x7d".toList = [key "\x7d"] from rfl), List.foldl_cons,
    nftLine_top_blank (show words [] = [] from rfl), List.foldl_nil, Kernel.modify_modify]
  rfl

/-- `init`'s program leaves the jumps and the chains as they were, and ends the forward
    chain of both families with the verdict `drop`. -/
theorem nft_initProgram (k : Kernel) :
    k.nft initProgram = fun f => { k f with policy := some (key "drop") } := by
  funext f
  cases f <;> rfl

end Nft

/-! ## Section 3: The worker when only translations may be refused -/

/-- A source address that is one word to both tools, and not empty. -/
def AddrWord (a : Str) : Prop := a ≠ [] ∧ OneWord a

instance : DecidablePred AddrWord := fun _ => inferInstanceAs (Decidable (_ ∧ _))

/-- The characters a value may hold for the backend's program to keep its shape: no line
    break for the legacy backend; for nftables none that ends a statement, opens a string or
    a comment, or a brace. -/
def Backend.ValueChar : Backend → Char → Prop
  | .iptables, c => c ≠ '\n'
  | .nftables, c => Nftables.ValueChar c

instance (b : Backend) : DecidablePred b.ValueChar := fun c =>
  match b with
  | .iptables => inferInstanceAs (Decidable (c ≠ '\n'))
  | .nftables => inferInstanceAs (Decidable (Nftables.ValueChar c))

/-- The backend takes the programs that are not translations of a stored rule set: those of
    `init` and `create_chain`, and the drop fallback's. -/
structure AcceptsOwn (b : Backend) (env : Env) (reject : Str → Option Str) : Prop where
  init : reject Nftables.initProgram = none
  create : ∀ f a c, reject (Nftables.createProgram f a c) = none
  fallback : ∀ c f Pd, b.prepare_rules env c [dropAll] f = .ok Pd → reject Pd = none

theorem Backend.chain_for_addr_eq (b : Backend) (a : Str) :
    ∃ r, b.chain_for_addr a = key "qbs-" ++ r := by
  cases b
  · exact ⟨_, rfl⟩
  · exact ⟨_, rfl⟩

theorem Backend.chain_ne_nil (b : Backend) (a : Str) : b.chain_for_addr a ≠ [] := by
  obtain ⟨r, hr⟩ := b.chain_for_addr_eq a
  rw [hr]
  exact List.cons_ne_nil _ _

/-- The chain of every address is one the worker owns: its name starts with `qbs-`. -/
theorem Backend.chain_owned (b : Backend) (a : Str) :
    Str.startswith (b.chain_for_addr a) (key "qbs-") = true := by
  obtain ⟨r, hr⟩ := b.chain_for_addr_eq a
  rw [hr, Str.startswith]
  exact List.isPrefixOf_iff_prefix.2 (List.prefix_append _ _)

theorem Backend.chain_ne_forward (b : Backend) (a : Str) : b.chain_for_addr a ≠ key "forward" := by
  obtain ⟨r, hr⟩ := b.chain_for_addr_eq a
  rw [hr]
  intro h
  have := congrArg List.head? h
  simp [key] at this

theorem Backend.chain_ne_qbsForward (b : Backend) (a : Str) :
    b.chain_for_addr a ≠ Table.qbsForward := by
  obtain ⟨r, hr⟩ := b.chain_for_addr_eq a
  rw [hr]
  intro h
  have := congrArg List.head? h
  simp [key, Table.qbsForward] at this

theorem Backend.oneWord_chain (b : Backend) {a : Str} (h : OneWord a) :
    OneWord (b.chain_for_addr a) := by
  cases b
  · exact oneWord_iptables_chain h
  · exact oneWord_nftables_chain h

/-- The shape of the backend's programs: the legacy program only appends to its chain, the
    nftables program only flushes and fills it. -/
def Backend.Shaped : Backend → Family → Str → Str → Prop
  | .iptables, _, c, P => AppendsOnlyTo c P
  | .nftables, f, c, P => FillsOnly f c P

/-- Over values, resolved addresses and nameservers of the backend's characters, every
    program `prepare_rules` returns for the chain of a one-word address has its shape. -/
theorem Backend.prepare_rules_shaped (b : Backend) {env : Env} {f : Family} {a : Str}
    (ha : OneWord a) {rules : List Dict} (hrules : ∀ r ∈ rules, r.ValuesOnly b.ValueChar)
    (henv : env.ResolvesOnly b.ValueChar f)
    (hns : ∀ N, dns_addresses env.resolvConf (some f) = .ok N → ∀ n ∈ N, Str.Only b.ValueChar n)
    {P : Str} (h : b.prepare_rules env (b.chain_for_addr a) rules f = .ok P) :
    b.Shaped f (b.chain_for_addr a) P := by
  cases b
  · exact prepare_rules_appendsOnly (oneWord_iptables_chain ha) hrules henv h
  · exact prepare_rules_fillsOnly (oneWord_nftables_chain ha) hrules henv hns h

theorem dropAll_valuesOnly (b : Backend) : ∀ r ∈ [dropAll], r.ValuesOnly b.ValueChar := by
  intro r hr
  rw [List.mem_singleton.1 hr]
  cases b <;> decide

/-- The drop fallback translates, unless reading the nameservers raises `IndexError`. -/
theorem Backend.prepare_rules_dropAll (b : Backend) (env : Env) (c : Str) (f : Family) :
    (∃ P, b.prepare_rules env c [dropAll] f = .ok P) ∨
      b.prepare_rules env c [dropAll] f = .error .indexError := by
  cases hd : dnsList env f with
  | error e =>
    obtain rfl : e = .indexError := dns_addresses_error (map_eq_error.1 hd)
    right
    cases b
    · rw [Backend.prepare_rules, Iptables.prepare_rules, hd]
      rfl
    · rw [Backend.prepare_rules, Nftables.prepare_rules, hd]
      rfl
  | ok dns =>
    left
    cases b <;> cases f
    · exact ⟨_, by rw [Backend.prepare_rules, Iptables.prepare_rules, hd]; rfl⟩
    · exact ⟨_, by rw [Backend.prepare_rules, Iptables.prepare_rules, hd]; rfl⟩
    · exact ⟨_, by rw [Backend.prepare_rules, Nftables.prepare_rules, hd]; rfl⟩
    · exact ⟨_, by rw [Backend.prepare_rules, Nftables.prepare_rules, hd]; rfl⟩

section Rejecting

variable {reject : Str → Option Str}

theorem run_ipt_rejecting (f : Family) (args : List Str) (s : Sys) :
    Iptables.run_ipt (Oracle.rejecting reject) f args s = .ok () (s.record (.ipt f args) .ok) :=
  check_call_ok _ rfl

theorem log_error_rejecting (msg : Str) (s : Sys) :
    log_error (Oracle.rejecting reject) msg s = .ok () (s.record (.notifySend msg) .ok) :=
  call_ok _ rfl

theorem run_nft_accepted {P : Str} (h : reject P = none) (s : Sys) :
    Nftables.run_nft (Oracle.rejecting reject) P s = .ok () (s.record (.nft P) .ok) := by
  rw [Nftables.run_nft, bind_of_ok (communicate_ok _ (by simp [Oracle.rejecting, h]))]
  rfl

theorem run_nft_rejected {P out : Str} (h : reject P = some out) (s : Sys) :
    Nftables.run_nft (Oracle.rejecting reject) P s =
      .error (.ruleApplyError ("nft failed: ".toList ++ out)) (s.record (.nft P) (.fail out)) := by
  rw [Nftables.run_nft,
    bind_of_ok (@communicate_fail (Oracle.rejecting reject) (.nft P) s out (by simp [Oracle.rejecting, h]))]
  rfl

theorem Sys.addChain_chains_of_mem {s : Sys} {f : Family} {c : Str} (h : c ∈ s.chains f) :
    (s.addChain f c).chains = s.chains :=
  funext fun f' => by
    by_cases hf : f' = f
    · subst hf
      simp [Sys.addChain, List.insert_of_mem h]
    · simp [Sys.addChain, hf]

/-- `create_chain` makes the chain, adds the jump to it, and records it. -/
theorem create_chain_rejecting (b : Backend) (env : Env) (hacc : AcceptsOwn b env reject) {a c : Str}
    (ha : AddrWord a) (hc : c ≠ []) (hc' : OneWord c) (hfwd : c ≠ key "forward") (f : Family)
    (s : Sys) :
    ∃ s', b.create_chain (Oracle.rejecting reject) a c f s = .ok () s' ∧
      s'.kernel = s.kernel.modify f (b.makeChain a c) ∧ s'.chains = (s.addChain f c).chains := by
  cases b
  · rw [Backend.create_chain, Iptables.create_chain, bind_of_ok (run_ipt_rejecting _ _ _),
      bind_of_ok (run_ipt_rejecting _ _ _), modify_apply]
    refine ⟨_, rfl, ?_, by simp only [Sys.record_addChain_chains]⟩
    simp only [Sys.addChain_kernel, Sys.record_ok_kernel, Kernel.exec, Table.ipt_new,
      Table.ipt_insert, Kernel.modify_modify]
    rfl
  · rw [Backend.create_chain, Nftables.create_chain,
      bind_of_ok (run_nft_accepted (hacc.create f a c) s), modify_apply]
    refine ⟨_, rfl, ?_, Sys.record_addChain_chains _ _ _ _ _⟩
    simp only [Sys.addChain_kernel, Sys.record_ok_kernel, Kernel.exec]
    exact nft_createProgram f ha.1 ha.2 hc hc' hfwd s.kernel

/-- `load_chain` of a program the backend takes leaves its rules in the chain. -/
theorem load_chain_accepted (b : Backend) {env : Env} {c : Str} {rules : List Dict} {f : Family}
    {P : Str} (hP : b.prepare_rules env c rules f = .ok P) (hshape : b.Shaped f c P)
    (hacc : reject P = none) (hc : c ≠ []) (hfwd : c ≠ key "forward")
    (hqbs : c ≠ Table.qbsForward) (s : Sys) (hex : ((s.kernel f).chains c).isSome) :
    ∃ s', b.load_chain (Oracle.rejecting reject) env c rules f s = .ok () s' ∧
      s'.kernel = s.kernel.modify f (·.setChain c (some (b.chainRules c P))) ∧
      s'.chains = s.chains := by
  cases b
  · change Iptables.prepare_rules env c rules f = .ok P at hP
    rw [Backend.load_chain, Iptables.load_chain, bind_of_ok (liftExcept_ok hP),
      tryCatch_of_ok (by
        rw [bind_of_ok (run_ipt_rejecting _ _ _),
          bind_of_ok (communicate_ok _ (by simp [Oracle.rejecting, hacc]))]
        rfl)]
    refine ⟨_, rfl, ?_, rfl⟩
    obtain ⟨r, hr⟩ := Option.isSome_iff_exists.1 hex
    have hflush : ((s.kernel f).flush c).chains c = some [] := by simp [Table.flush, hr]
    simp only [Sys.record_ok_kernel, Kernel.exec, Kernel.modify_modify]
    refine Kernel.modify_congr (s.kernel) ?_
    rw [Function.comp_apply, Table.ipt_flush _ hqbs, restore_appendsOnly hshape hflush,
      Table.flush, Table.setChain_setChain, List.nil_append]
  · change Nftables.prepare_rules env c rules f = .ok P at hP
    rw [Backend.load_chain, Nftables.load_chain, bind_of_ok (liftExcept_ok hP),
      run_nft_accepted hacc]
    refine ⟨_, rfl, ?_, rfl⟩
    simp only [Sys.record_ok_kernel, Kernel.exec]
    exact nft_fillsOnly hshape hc hfwd s.kernel

/-- `load_chain` of a program the backend refuses raises `RuleApplyError`: the legacy
    backend has flushed the chain by then, `nft` leaves it as it was. -/
theorem load_chain_rejected (b : Backend) {env : Env} {c : Str} {rules : List Dict} {f : Family}
    {P out : Str} (hP : b.prepare_rules env c rules f = .ok P) (hrej : reject P = some out)
    (hqbs : c ≠ Table.qbsForward) (s : Sys) (hex : ((s.kernel f).chains c).isSome) :
    ∃ msg s', b.load_chain (Oracle.rejecting reject) env c rules f s =
        .error (.ruleApplyError msg) s' ∧
      s'.chains = s.chains ∧ ∃ r, s'.kernel = s.kernel.modify f (·.setChain c (some r)) := by
  obtain ⟨r, hr⟩ := Option.isSome_iff_exists.1 hex
  cases b
  · change Iptables.prepare_rules env c rules f = .ok P at hP
    rw [Backend.load_chain, Iptables.load_chain, bind_of_ok (liftExcept_ok hP),
      tryCatch_of_error (by
        rw [bind_of_ok (run_ipt_rejecting _ _ _), bind_of_ok (@communicate_fail
          (Oracle.rejecting reject) (.iptRestore f P) (s.record (.ipt f [key "-F", c]) .ok) out
          (by simp [Oracle.rejecting, hrej]))]
        rfl)]
    refine ⟨_, _, rfl, rfl, [], ?_⟩
    show s.kernel.modify f (·.ipt [key "-F", c]) = _
    refine Kernel.modify_congr _ ?_
    rw [Table.ipt_flush _ hqbs, Table.flush, hr]
    rfl
  · change Nftables.prepare_rules env c rules f = .ok P at hP
    rw [Backend.load_chain, Nftables.load_chain, bind_of_ok (liftExcept_ok hP),
      run_nft_rejected hrej]
    exact ⟨_, _, rfl, rfl, r, (Kernel.modify_of_eq _ (Table.setChain_of_eq _ hr)).symm⟩

/-- `load_chain` raises what the translation raises, before any command runs. -/
theorem load_chain_error (o : Oracle) (b : Backend) {env : Env} {c : Str} {rules : List Dict}
    {f : Family} {e : PyExc} (hP : b.prepare_rules env c rules f = .error e) (s : Sys) :
    b.load_chain o env c rules f s = .error e s := by
  cases b
  · change Iptables.prepare_rules env c rules f = .error e at hP
    rw [Backend.load_chain, Iptables.load_chain, bind_of_error (liftExcept_error hP)]
  · change Nftables.prepare_rules env c rules f = .error e at hP
    rw [Backend.load_chain, Nftables.load_chain, bind_of_error (liftExcept_error hP)]

end Rejecting

end QubesFirewall
