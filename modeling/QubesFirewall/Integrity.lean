import QubesFirewall.Restart

/-! # Whatever fails, a chain holds a rule set the store gave

    Under any pattern of command outcomes, the chain of an address holds one of: what it held
    when the service started, no rule, or the rules of the program translated from a rule set
    some `handle_addr` call read for an address with that chain (or from the drop fallback).
    It never holds a mix of two programs, nor a part of one: the legacy backend empties the
    chain before `iptables-restore` appends the whole program, and `nft` runs a program as one
    transaction; a command that fails changes nothing.

    With the registry agreeing with the tables, a jump for traffic from an address goes to
    that address's chain, and the forward chains end with the verdict they started with or
    with the drop of `init`.  So, read as a packet filter, the forward chain gives a new packet
    that final verdict, or the verdict of the first matching rule of the chain of a literal of
    the packet's host (the jump `-I` put first among them may be another literal's): a rule
    set the store held for an address with that chain at one of `main`'s reads, or what the
    chain held at the start.
-/

namespace QubesFirewall

/-! ## Section 1: What a chain may hold -/

section Vetted

variable (b : Backend) (env : Env) (k₀ : Kernel)

/-- What the worker may leave in chain `c` of family `f` after the calls `H`: what `c` held
    in `k₀`, no rule, or the rules of the program translated, for an address of `H` with that
    family and chain name, from the rule set its call read or from the drop fallback. -/
def Vetted (H : List (Str × QubesDB)) (f : Family) (c : Str) (v : Option (List Str)) : Prop :=
  v = (k₀ f).chains c ∨ v = some [] ∨
    ∃ p ∈ H, familyOf p.1 = f ∧ b.chain_for_addr p.1 = c ∧ ∃ rules P,
      (read_rules p.2 p.1 = .ok rules ∨ rules = [dropAll]) ∧ b.prepare_rules env c rules f = .ok P ∧
        v = some (b.chainRules c P)

/-- Every chain the worker owns holds what it may after the calls `H`; the scripts `main`
    starts may change the others. -/
def AllVetted (H : List (Str × QubesDB)) (k : Kernel) : Prop :=
  ∀ f c, Str.startswith c (key "qbs-") = true → Vetted b env k₀ H f c ((k f).chains c)

variable {b env k₀} {H : List (Str × QubesDB)}

theorem Vetted.append {f : Family} {c : Str} {v : Option (List Str)} (h : Vetted b env k₀ H f c v)
    (H' : List (Str × QubesDB)) : Vetted b env k₀ (H ++ H') f c v := by
  rcases h with h | h | ⟨p, hp, h⟩
  · exact .inl h
  · exact .inr (.inl h)
  · exact .inr (.inr ⟨p, List.mem_append_left _ hp, h⟩)

/-- A change of one family's table that sends each chain to a value it may hold keeps the
    tables vetted. -/
theorem AllVetted.modify {k : Kernel} (h : AllVetted b env k₀ H k) {f : Family} {g : Table → Table}
    (hg : ∀ c, Vetted b env k₀ H f c ((k f).chains c) → Vetted b env k₀ H f c ((g (k f)).chains c)) :
    AllVetted b env k₀ H (k.modify f g) := by
  intro f' c hc
  by_cases hf : f' = f
  · subst hf
    rw [Kernel.modify_self]
    exact hg c (h f' c hc)
  · rw [Kernel.modify_ne _ _ hf]
    exact h f' c hc

/-- Setting one chain to a value it may hold keeps the tables vetted. -/
theorem AllVetted.setChain {k : Kernel} (h : AllVetted b env k₀ H k) {f : Family} {c : Str}
    {v : Option (List Str)} (hv : Vetted b env k₀ H f c v) :
    AllVetted b env k₀ H (k.modify f (·.setChain c v)) :=
  h.modify fun c' hc' => by
    by_cases hc : c' = c
    · subst hc
      rwa [Table.setChain_self]
    · rwa [Table.setChain_ne _ _ hc]

/-- Flushing a chain keeps every chain as it may be: the flushed chain becomes empty, or
    stays absent. -/
theorem Vetted.flush {f : Family} {c : Str} {t : Table} (h : Vetted b env k₀ H f c (t.chains c))
    (c' : Str) : Vetted b env k₀ H f c ((t.flush c').chains c) := by
  unfold Table.flush
  by_cases hc : c = c'
  · subst hc
    rw [Table.setChain_self]
    cases hv : t.chains c with
    | none => rw [hv] at h; exact h
    | some _ => exact .inr (.inl rfl)
  · rwa [Table.setChain_ne _ _ hc]

end Vetted

/-! ## Section 2: The legacy backend empties a chain before it restores it -/

/-- A flushed chain is empty, or absent when it was. -/
theorem Table.flush_emptied (t : Table) (c : Str) :
    (t.flush c).chains c = none ∨ (t.flush c).chains c = some [] := by
  unfold Table.flush
  rw [Table.setChain_self]
  cases t.chains c
  · exact .inl rfl
  · exact .inr rfl

/-- A program that only appends to `c`, fed where `c` is empty or absent, leaves in `c` what
    was there or exactly its lines. -/
theorem restore_emptied {c P : Str} (h : AppendsOnlyTo c P) {t : Table}
    (ht : t.chains c = none ∨ t.chains c = some []) :
    (t.restore P).chains c = t.chains c ∨
      (t.restore P).chains c = some (Backend.iptables.chainRules c P) := by
  obtain ⟨hw, body, hs, hb⟩ := h
  have hfold : t.restore P = body.foldl Table.restoreLine t := by
    rw [Table.restore, hs, List.foldl_cons,
      Table.restoreLine_single (show Str.split (key "*filter") ' ' = [key "*filter"] from rfl),
      List.foldl_append, List.foldl_cons, List.foldl_cons, List.foldl_nil,
      Table.restoreLine_single (show Str.split (key "COMMIT") ' ' = [key "COMMIT"] from rfl),
      Table.restoreLine_single (show Str.split ([] : Str) ' ' = [[]] from rfl)]
  rw [Iptables.chainRules_of_split hs hb, hfold]
  cases body with
  | nil => exact .inl rfl
  | cons l body =>
    obtain ⟨rest, hl⟩ := split_appendLine hw.no_space (hb l (List.mem_cons_self _ _))
    have h₁ : (t.restoreLine l).chains c = some [l] := by
      rw [Table.restoreLine_append hl, Table.append, Table.setChain_self]
      rcases ht with ht | ht <;> rw [ht] <;> rfl
    rw [List.foldl_cons, foldl_restoreLine hw.no_space h₁ fun l' h' => hb l' (List.mem_cons_of_mem _ h'),
      Table.setChain_self]
    exact .inr rfl

theorem communicate_state (o : Oracle) (c : Cmd) (s : Sys) :
    stateOf (communicate o c s) = s.record c (o s.ran c) := by
  rw [communicate, bind_of_ok (run_eq o c s)]
  cases o s.ran c <;> rfl

section Keeps

variable {J : Kernel → (Family → List Str) → Prop} {β : Type} {o : Oracle}

/-- A command followed by a second, as the legacy `load_chain` empties a chain and then feeds
    `iptables-restore`, keeps `J` when the first keeps it and the two in a row keep it, even
    if the second alone would not. -/
theorem Keeps.check_call_communicate {c₁ c₂ : Cmd} {g : Option Str → WorkerM β}
    (h₁ : ∀ s : Sys, J s.kernel s.chains → J (s.kernel.exec c₁) s.chains)
    (h₂ : ∀ s : Sys, J s.kernel s.chains → J ((s.kernel.exec c₁).exec c₂) s.chains)
    (hg : ∀ r, Keeps J (g r)) :
    Keeps J (QubesFirewall.check_call o c₁ >>= fun _ => QubesFirewall.communicate o c₂ >>= g) := by
  intro s hs
  rcases check_call_cases o c₁ s with hF | ⟨e, hF, hFo⟩
  · rw [bind_of_ok hF]
    have hJ : J (stateOf (QubesFirewall.communicate o c₂ (s.record c₁ .ok))).kernel s.chains := by
      rw [communicate_state]
      by_cases ho : o (s.record c₁ .ok).ran c₂ = .ok
      · rw [ho, Sys.record_ok_kernel, Sys.record_ok_kernel]
        exact h₂ s hs
      · rw [Sys.record, if_neg ho, Sys.record_ok_kernel]
        exact h₁ s hs
    have hch : (stateOf (QubesFirewall.communicate o c₂ (s.record c₁ .ok))).chains = s.chains := by
      rw [communicate_state]; rfl
    cases hc : QubesFirewall.communicate o c₂ (s.record c₁ .ok) with
    | ok r s₂ =>
      rw [hc] at hJ hch
      rw [bind_of_ok hc]
      exact hg r s₂ (by rw [show s₂.chains = s.chains from hch]; exact hJ)
    | error e s₂ =>
      rw [hc] at hJ hch
      rw [bind_of_error hc]
      show J s₂.kernel s₂.chains
      rw [show s₂.chains = s.chains from hch]
      exact hJ
  · rw [bind_of_error hF]
    rwa [Sys.record, if_neg hFo]

end Keeps

/-! ## Section 3: The worker's steps keep the chains vetted -/

section Worker

variable {o : Oracle} {b : Backend} {env : Env} {k₀ : Kernel} {H : List (Str × QubesDB)}
  {a : Str} (ha : AddrWord a)

include ha

/-- `create_chain` makes the chain empty, or, for nftables, keeps it as it was. -/
theorem create_chain_vetted :
    Keeps (fun k _ => AllVetted b env k₀ H k) (b.create_chain o a (b.chain_for_addr a) (familyOf a)) := by
  cases b
  · refine (Keeps.check_call fun s hs => ?_).bind fun _ =>
      (Keeps.check_call fun s hs => hs.modify fun _ hc => hc).bind fun _ => fun s hs => hs
    exact hs.setChain (.inr (.inl rfl))
  · refine (Keeps.run_nft fun s hs => ?_).bind fun _ => fun s hs => hs
    rw [nft_createProgram _ ha.1 ha.2 (Backend.nftables.chain_ne_nil a)
      (Backend.nftables.oneWord_chain ha.2) (Backend.nftables.chain_ne_forward a)]
    refine hs.modify fun c hc => ?_
    by_cases h : c = Backend.nftables.chain_for_addr a
    · subst h
      show Vetted _ _ _ _ _ _ ((Table.setChain _ _ _).chains _)
      rw [Table.setChain_self]
      cases hv : (s.kernel (familyOf a)).chains (Backend.nftables.chain_for_addr a) with
      | none => exact .inr (.inl rfl)
      | some r => rw [hv] at hc; exact hc
    · rwa [Backend.makeChain_chains_ne _ _ h]

variable (henv : env.ResolvesOnly b.ValueChar (familyOf a))
  (hns : ∀ N, dns_addresses env.resolvConf (some (familyOf a)) = .ok N →
    ∀ n ∈ N, Str.Only b.ValueChar n)
  {db : QubesDB} (hmem : (a, db) ∈ H)

include henv hns hmem

/-- `load_chain`, given the rule set the call read or the drop fallback, leaves the chain as
    it was, empty, or holding the rules of the program. -/
theorem load_chain_vetted {rules : List Dict} (hrules : ∀ r ∈ rules, r.ValuesOnly b.ValueChar)
    (hfrom : read_rules db a = .ok rules ∨ rules = [dropAll]) :
    Keeps (fun k _ => AllVetted b env k₀ H k)
      (b.load_chain o env (b.chain_for_addr a) rules (familyOf a)) := by
  have hnew : ∀ P, b.prepare_rules env (b.chain_for_addr a) rules (familyOf a) = .ok P →
      Vetted b env k₀ H (familyOf a) (b.chain_for_addr a) (some (b.chainRules (b.chain_for_addr a) P)) :=
    fun P hP => .inr (.inr ⟨(a, db), hmem, rfl, rfl, rules, P, hfrom, hP, rfl⟩)
  cases b
  · refine Keeps.bind_liftExcept fun P hP => Keeps.tryCatch ?_ fun e => by
      cases e <;> exact Keeps.throw _
    have hshape := Backend.iptables.prepare_rules_shaped ha.2 hrules henv hns hP
    have hflush : ∀ t : Table, t.ipt [key "-F", Backend.iptables.chain_for_addr a] =
        t.flush (Backend.iptables.chain_for_addr a) :=
      fun t => Table.ipt_flush _ (Backend.iptables.chain_ne_qbsForward a)
    refine Keeps.check_call_communicate (fun s hs => hs.modify fun c hc => ?_) (fun s hs => ?_)
      fun r => by cases r <;> first | exact Keeps.pure _ | exact Keeps.throw _
    · dsimp only
      rw [hflush]
      exact hc.flush _
    rw [Kernel.exec, Kernel.exec, Kernel.modify_modify]
    refine hs.modify fun c hc => ?_
    dsimp only [Function.comp_apply]
    rw [hflush]
    by_cases h : c = Backend.iptables.chain_for_addr a
    · subst h
      rcases restore_emptied hshape (Table.flush_emptied _ _) with hr | hr <;> rw [hr]
      · exact hc.flush _
      · exact hnew P hP
    · rw [restore_chains_ne hshape h]
      exact hc.flush _
  · refine Keeps.bind_liftExcept fun P hP => Keeps.run_nft fun s hs => ?_
    rw [nft_fillsOnly (Backend.nftables.prepare_rules_shaped ha.2 hrules henv hns hP)
      (Backend.nftables.chain_ne_nil a) (Backend.nftables.chain_ne_forward a)]
    exact hs.setChain (hnew P hP)

/-- A `handle_addr` call keeps the chains vetted: it loads the rule set it read or the drop
    fallback, into the chain of its own address. -/
theorem handle_addr_vetted (hdb : (db.multiread (targetDir a)).ValuesOnly b.ValueChar) :
    Keeps (fun k _ => AllVetted b env k₀ H k) (handle_addr o b env db a) :=
  handle_addr_keeps (R := fun rules =>
      (∀ r ∈ rules, r.ValuesOnly b.ValueChar) ∧ (read_rules db a = .ok rules ∨ rules = [dropAll]))
    (fun s hs _ => create_chain_vetted ha s hs) (fun _ h => load_chain_vetted ha henv hns hmem h.1 h.2)
    (fun _ hr => ⟨read_rules_valuesOnly hdb hr, .inl hr⟩) ⟨dropAll_valuesOnly b, .inr rfl⟩

end Worker

/-! ## Section 4: Over a run -/

/-- Over a run whose calls are for one-word addresses with values of the backend's
    characters, every chain the worker owns holds what it may after the run's calls. -/
theorem Daemon.vetted_exec {o : Oracle} {b : Backend} {env : Env}
    (henv : ∀ f, env.ResolvesOnly b.ValueChar f)
    (hns : ∀ f N, dns_addresses env.resolvConf (some f) = .ok N → ∀ n ∈ N, Str.Only b.ValueChar n)
    {k₀ : Kernel} (ls : List Label) {d : Daemon}
    (h : Daemon.Holds (fun H k => AllVetted b env k₀ H k) [] d)
    (hcalls : ∀ p ∈ Daemon.calls o b env ls d,
      AddrWord p.1 ∧ (p.2.multiread (targetDir p.1)).ValuesOnly b.ValueChar) :
    Daemon.Holds (fun H k => AllVetted b env k₀ H k) (Daemon.calls o b env ls d)
      (Daemon.exec o b env ls d) :=
  List.nil_append (Daemon.calls o b env ls d) ▸
    Daemon.Holds.exec (Q := fun H k => AllVetted b env k₀ H k)
      (fun H _ _ _ hs => (init_chains o fun ch => ∀ f c, Str.startswith c (key "qbs-") = true →
        Vetted b env k₀ H f c (ch f c)).of_ok hs)
      (fun _ p ⟨ha, hdb⟩ s hs => handle_addr_vetted ha (henv _) (hns _)
        (List.mem_append_right _ (List.mem_singleton_self p)) hdb s fun f c hc => (hs f c hc).append [p])
      ls h hcalls fun sc _ _ k hk f c hc => by
        rw [sc.owned k f c hc]
        exact hk f c hc

/-! ## Section 5: The final verdict of the forward chains -/

/-- Each forward chain ends with the verdict it had in `k₀`, or with the backend's drop. -/
def PolicyFrom (b : Backend) (k₀ k : Kernel) : Prop :=
  ∀ f, (k f).policy = (k₀ f).policy ∨ (k f).policy = some (b.verdictOf (key "drop"))

/-- Over a run whose calls are for one-word addresses with values of the backend's
    characters, each forward chain ends with the verdict it started with, or, once `init`
    has returned, with its drop: no call and no script changes it. -/
theorem Daemon.policyFrom_exec {o : Oracle} {b : Backend} {env : Env}
    (henv : ∀ f, env.ResolvesOnly b.ValueChar f)
    (hns : ∀ f N, dns_addresses env.resolvConf (some f) = .ok N → ∀ n ∈ N, Str.Only b.ValueChar n)
    {k₀ : Kernel} (ls : List Label) {d : Daemon}
    (h : Daemon.Holds (fun _ k => PolicyFrom b k₀ k) [] d)
    (hcalls : ∀ p ∈ Daemon.calls o b env ls d,
      AddrWord p.1 ∧ (p.2.multiread (targetDir p.1)).ValuesOnly b.ValueChar) :
    Daemon.Holds (fun _ k => PolicyFrom b k₀ k) (Daemon.calls o b env ls d)
      (Daemon.exec o b env ls d) :=
  List.nil_append (Daemon.calls o b env ls d) ▸
    Daemon.Holds.exec (Q := fun _ k => PolicyFrom b k₀ k)
      (fun _ _ _ _ _ hi f => .inr (Backend.init_policy hi f))
      (fun _ p ⟨ha, hdb⟩ s hs f => by
        have hk := handle_addr_otherJumps (o := o)
          (fun f src => (s.kernel f).jumps.filter fun j => sameHost j.1 src)
          (fun f => (s.kernel f).policy) ha (henv _) (hns _) hdb s ⟨fun _ _ _ => rfl, fun _ => rfl⟩
        rw [hk.2 f]
        exact hs f)
      ls h hcalls fun sc _ _ k hk f => by
        rw [(sc.forward k f).2]
        exact hk f

/-! ## Section 6: What the forward chain does with a packet -/

section Forward

variable {b : Backend} {env : Env} {k₀ : Kernel} {H : List (Str × QubesDB)} {k : Kernel}
  {inPrefix : Str → Str → Bool}

/-- What the forward chain may do with a new packet from `a` after the calls `H`: give the
    final verdict it started with or the drop, or give the first matching rule's verdict of
    one chain, the chain of a literal `a'` of the same host, holding what it held at the start
    or the program translated from a rule set a call of `H` read for an address with that
    chain. -/
def FromSomeRead (b : Backend) (env : Env) (k₀ : Kernel) (H : List (Str × QubesDB))
    (inPrefix : Str → Str → Bool) (a : Str) (pkt : Packet (familyOf a)) (v : Option Str) : Prop :=
  v = (k₀ (familyOf a)).policy ∨ v = some (b.verdictOf (key "drop")) ∨
    ∃ a', sameHost a' a = true ∧ familyOf a' = familyOf a ∧
      ((∃ r, (k₀ (familyOf a)).chains (b.chain_for_addr a') = some r ∧
          v = r.findSome? (b.ruleVerdict inPrefix pkt)) ∨
        ∃ p ∈ H, familyOf p.1 = familyOf a ∧ b.chain_for_addr p.1 = b.chain_for_addr a' ∧
          ∃ rules P, read_rules p.2 p.1 = .ok rules ∧
            b.prepare_rules env (b.chain_for_addr a') rules (familyOf a) = .ok P ∧
            v = (b.chainRules (b.chain_for_addr a') P).findSome? (b.ruleVerdict inPrefix pkt))

/-- Read as a packet filter, vetted tables that the registry agrees with and whose forward
    chains end as they started or with the drop do with a new packet what `FromSomeRead`
    allows: the jump that decides is for a literal of the packet's host and names that
    literal's chain. -/
theorem AllVetted.forward (hv : AllVetted b env k₀ H k) {reg : Family → List Str}
    (hc : Consistent b k reg) (hp : PolicyFrom b k₀ k) (hH : ∀ p ∈ H, AddrWord p.1) (a : Str)
    (pkt : Packet (familyOf a)) :
    FromSomeRead b env k₀ H inPrefix a pkt ((k (familyOf a)).forward b inPrefix a pkt) := by
  rw [Table.forward]
  cases hj : ((k (familyOf a)).jumps.filter fun j => sameHost j.1 a).findSome? fun j =>
      ((k (familyOf a)).chains j.2).bind (·.findSome? (b.ruleVerdict inPrefix pkt)) with
  | none => exact (hp (familyOf a)).imp id .inl
  | some x =>
    obtain ⟨j, hjm, hx⟩ := List.exists_of_findSome?_eq_some hj
    obtain ⟨hjk, hja⟩ := List.mem_filter.1 hjm
    obtain ⟨hch, hf⟩ := hc.ownChain _ j.1 j.2 hjk
    rw [← hch] at hx
    refine .inr ?_
    rcases hv (familyOf a) _ (b.chain_owned j.1) with
      h | h | ⟨p, hp, hpf, hpc, rules, P, hfrom | rfl, hP, h⟩ <;> rw [h] at hx
    · cases h₀ : (k₀ (familyOf a)).chains (b.chain_for_addr j.1) with
      | none => rw [h₀] at hx; cases hx
      | some r => rw [h₀] at hx; exact .inr ⟨j.1, hja, hf, .inl ⟨r, h₀, hx.symm⟩⟩
    · cases hx
    · exact .inr ⟨j.1, hja, hf, .inr ⟨p, hp, hpf, hpc, rules, P, hfrom, hP, hx.symm⟩⟩
    · exact .inl (hx.symm.trans (Backend.dropAll_verdict (hpc ▸ b.oneWord_chain (hH p hp).2) hP pkt))

end Forward

end QubesFirewall
