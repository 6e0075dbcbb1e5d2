import QubesFirewall.Install

/-! # `cleanup` leaves no jump and no chain of the registry

    `main` returns only from `cleanup`.  The legacy backend empties `QBS-FORWARD` and then
    empties and deletes every chain of the registry, in both families; the nftables backend
    deletes both tables.  Each command runs under `check_call` or `run_nft`, so a `cleanup`
    that returns had every command exit with status zero, whatever the oracle.  The tables
    are then left without a jump and without the registered chains: the next start of the
    service finds forward chains with no jump.
-/

namespace QubesFirewall

/-! ## Section 1: Commands that return -/

section Steps

variable {α β : Type} {x : WorkerM α} {g : α → WorkerM β} {s s' : Sys}

/-- A bind that returns: its first step returned, and its second returned from there. -/
theorem exists_of_bind_eq_ok {v : β} (h : (x >>= g) s = .ok v s') :
    ∃ a s₁, x s = .ok a s₁ ∧ g a s₁ = .ok v s' := by
  cases hx : x s with
  | ok a s₁ => exact ⟨a, s₁, rfl, by rwa [bind_of_ok hx] at h⟩
  | error e s₁ =>
    rw [bind_of_error hx] at h
    cases h

end Steps

variable {o : Oracle} {s s' : Sys}

/-- A `check_call` that returns ran its command with status zero. -/
theorem check_call_eq_ok {c : Cmd} {u : Unit} (h : check_call o c s = .ok u s') :
    s' = s.record c .ok := by
  rw [check_call, bind_of_ok (run_eq o c s)] at h
  cases ho : o s.ran c <;> rw [ho] at h <;> cases h
  rfl

/-- A `run_nft` that returns ran `nft` with status zero. -/
theorem run_nft_eq_ok {P : Str} {u : Unit} (h : Nftables.run_nft o P s = .ok u s') :
    s' = s.record (.nft P) .ok := by
  obtain ⟨out, s₁, hc, h⟩ := exists_of_bind_eq_ok h
  rw [communicate, bind_of_ok (run_eq o _ s)] at hc
  cases ho : o s.ran (.nft P) <;> rw [ho] at hc <;> cases hc
  · cases h
    rfl
  · cases h

/-! ## Section 2: What `cleanup` does to the tables -/

namespace Table

theorem ipt_delete (t : Table) (c : Str) : t.ipt [key "-X", c] = t.setChain c none := rfl

/-- `-F c` and then `-X c`: what `IptablesWorker.cleanup` does to each registered chain. -/
def dropChain (t : Table) (c : Str) : Table := (t.ipt [key "-F", c]).ipt [key "-X", c]

theorem dropChain_jumps {t : Table} (h : t.jumps = []) (c : Str) : (t.dropChain c).jumps = [] := by
  rw [dropChain, ipt_delete, setChain_jumps]
  by_cases hc : c = qbsForward
  · rw [hc, qbsForward, ipt_flush_forward]
  · rw [ipt_flush _ hc, flush, setChain_jumps, h]

theorem dropChain_chains (t : Table) (c c' : Str) :
    (t.dropChain c).chains c' = if c' = c then none else t.chains c' := by
  rw [dropChain, ipt_delete]
  split
  · next h => rw [h, setChain_self]
  · next h =>
    rw [setChain_ne _ _ h]
    by_cases hc : c = qbsForward
    · rw [hc, qbsForward, ipt_flush_forward]
    · rw [ipt_flush _ hc, flush, setChain_ne _ _ h]

/-- Dropping the chains `L` in turn leaves each of them gone, and a chain gone before stays
    gone. -/
theorem foldl_dropChain_chains :
    ∀ (L : List Str) (t : Table) (c : Str), c ∈ L ∨ t.chains c = none →
      (L.foldl dropChain t).chains c = none
  | [], _, c, h => h.resolve_left (List.not_mem_nil c)
  | c' :: L, t, c, h => foldl_dropChain_chains L _ c <| by
    rw [dropChain_chains]
    by_cases hc : c = c'
    · exact .inr (if_pos hc)
    · rw [if_neg hc]
      exact h.imp_left fun hm => (List.mem_cons.1 hm).resolve_left hc

theorem foldl_dropChain_jumps :
    ∀ (L : List Str) (t : Table), t.jumps = [] → (L.foldl dropChain t).jumps = []
  | [], _, h => h
  | c :: L, _, h => foldl_dropChain_jumps L _ (dropChain_jumps h c)

/-- What `IptablesWorker.cleanup` leaves of a table whose registry holds `L`. -/
def cleaned (L : List Str) (t : Table) : Table := L.foldl dropChain (t.ipt [key "-F", qbsForward])

theorem cleaned_jumps (L : List Str) (t : Table) : (t.cleaned L).jumps = [] :=
  foldl_dropChain_jumps L _ rfl

theorem cleaned_chains {L : List Str} {c : Str} (h : c ∈ L) (t : Table) :
    (t.cleaned L).chains c = none :=
  foldl_dropChain_chains L _ c (.inl h)

end Table

/-- `nft`'s reading of `cleanup`'s program deletes the table of each family. -/
theorem nft_cleanupProgram (k : Kernel) (f : Family) :
    k.nft Nftables.cleanupProgram f = Table.empty := by
  cases f <;> rfl

/-- The loop of `IptablesWorker.cleanup` over the chains of one family, when it returns, has
    dropped them in turn from the family's table, and left the registry as it was. -/
theorem dropChains_eq_ok {f : Family} : ∀ (L : List Str) {s s' : Sys} {u : Unit},
    (L.forM (fun chain => do
        Iptables.run_ipt o f [key "-F", chain]
        Iptables.run_ipt o f [key "-X", chain]) : WorkerM PUnit) s = .ok u s' →
      s'.kernel = s.kernel.modify f (L.foldl Table.dropChain) ∧ s'.chains = s.chains
  | [], s, s', u, h => by
    cases h
    exact ⟨(Kernel.modify_of_eq _ rfl).symm, rfl⟩
  | c :: L, s, s', u, h => by
    rw [List.forM] at h
    obtain ⟨_, s₂, h₁, h⟩ := exists_of_bind_eq_ok h
    obtain ⟨_, s₁, hF, hX⟩ := exists_of_bind_eq_ok h₁
    obtain ⟨hk, hc⟩ := dropChains_eq_ok L h
    rw [check_call_eq_ok hX, check_call_eq_ok hF] at hk hc
    refine ⟨hk.trans ?_, hc⟩
    simp only [Sys.record_ok_kernel, Kernel.exec, Kernel.modify_modify]
    rfl

/-- An `IptablesWorker.cleanup` that returns leaves the registry as it was, and each family's
    table as `cleaned` says. -/
theorem Iptables.cleanup_eq_ok {u : Unit} (h : Iptables.cleanup o s = .ok u s') :
    s'.chains = s.chains ∧ ∀ f, s'.kernel f = (s.kernel f).cleaned (s.chains f) := by
  have hfam : ∀ (f : Family) {s s' : Sys} {u : Unit},
      (do
        Iptables.run_ipt o f [key "-F", key "QBS-FORWARD"]
        ((← get).chains f).forM fun chain => do
          Iptables.run_ipt o f [key "-F", chain]
          Iptables.run_ipt o f [key "-X", chain] : WorkerM Unit) s = .ok u s' →
      s'.chains = s.chains ∧ s'.kernel = s.kernel.modify f ((·.cleaned (s.chains f))) := by
    intro f s s' u h
    obtain ⟨_, s₁, hF, h⟩ := exists_of_bind_eq_ok h
    rw [bind_of_ok (rfl : (get : WorkerM Sys) s₁ = .ok s₁ s₁)] at h
    obtain ⟨hk, hc⟩ := dropChains_eq_ok _ h
    rw [check_call_eq_ok hF] at hk hc
    refine ⟨hc, hk.trans ?_⟩
    simp only [Sys.record_ok_kernel, Kernel.exec, Kernel.modify_modify, Sys.record_chains]
    rfl
  simp only [Iptables.cleanup, List.forM] at h
  obtain ⟨_, s₁, h₄, h⟩ := exists_of_bind_eq_ok h
  obtain ⟨_, s₂, h₆, h⟩ := exists_of_bind_eq_ok h
  cases h
  obtain ⟨hc₄, hk₄⟩ := hfam .four h₄
  obtain ⟨hc₆, hk₆⟩ := hfam .six h₆
  refine ⟨hc₆.trans hc₄, fun f => ?_⟩
  rw [hk₆, hc₄, hk₄]
  cases f
  · rw [Kernel.modify_ne _ _ (by decide), Kernel.modify_self]
  · rw [Kernel.modify_self, Kernel.modify_ne _ _ (by decide)]

/-! ## Section 3: The state `cleanup` leaves -/

/-- What a `cleanup` that returned leaves: no jump in the forward chain of either family, and
    none of the registered chains; with the nftables backend, both tables deleted. -/
structure Cleaned (b : Backend) (s : Sys) : Prop where
  jumps : ∀ f, (s.kernel f).jumps = []
  chains : ∀ f, ∀ c ∈ s.chains f, (s.kernel f).chains c = none
  tables : b = .nftables → ∀ f, s.kernel f = Table.empty

/-- The backend's `cleanup`, when it returns, leaves the tables cleaned. -/
theorem Backend.cleanup_cleaned {b : Backend} {u : Unit} (h : b.cleanup o s = .ok u s') :
    Cleaned b s' := by
  cases b with
  | iptables =>
    obtain ⟨hc, hk⟩ := Iptables.cleanup_eq_ok h
    refine ⟨fun f => by rw [hk]; exact Table.cleaned_jumps _ _, fun f c hm => ?_, nofun⟩
    rw [hk]
    exact Table.cleaned_chains (hc ▸ hm) _
  | nftables =>
    have hk : ∀ f, s'.kernel f = Table.empty := fun f => by
      rw [run_nft_eq_ok h, Sys.record_ok_kernel, Kernel.exec, nft_cleanupProgram]
    exact ⟨fun f => by rw [hk]; rfl, fun f c _ => by rw [hk]; rfl, fun _ => hk⟩

namespace Daemon

variable {b : Backend} {env : Env}

/-- `main` returns only from the step that runs `cleanup`, and then `cleanup` returned. -/
theorem mainStep_exited {d d' : Daemon} (h : mainStep o b env d = some d') (hx : d'.pc = .exited) :
    ∃ u, b.cleanup o d.sys = .ok u d'.sys := by
  have hafter : ∀ {d : Daemon} {r : EStateM.Result PyExc Sys Unit} {next : Pc}
      {onError : PyExc → Pc}, (d.after r next onError).pc = .exited → next ≠ .exited →
        (∀ e, onError e ≠ .exited) → False := by
    intro d r next onError hx hn he
    cases r
    · exact hn hx
    · exact he _ hx
  rcases d with ⟨pc, sys, db, w, q, tr, wr⟩
  cases pc with
  | start =>
    cases h
    exact (hafter hx nofun fun _ => nofun).elim
  | listing =>
    cases h
    exact absurd hx (by cases hl : list_targets db <;> simp [sweepOf, hl])
  | sweep todo =>
    cases todo with
    | nil => cases h; cases hx
    | cons a todo =>
      cases h
      exact (hafter hx nofun fun _ => nofun).elim
  | loop =>
    cases q with
    | nil => cases h
    | cons p q =>
      cases h
      refine absurd hx ?_
      show watchTarget p ≠ .exited
      unfold watchTarget
      split_ifs
      · nofun
      · split <;> nofun
  | handling a =>
    cases h
    exact (hafter hx nofun fun e => by split <;> nofun).elim
  | cleanup =>
    cases h
    cases hr : b.cleanup o sys with
    | ok u s => exact ⟨u, rfl⟩
    | error e s =>
      simp only [hr, after] at hx
      cases hx
  | exited | raised _ => cases h

/-- A run that has `main` returned leaves the tables cleaned, once every state where `main`
    had returned did. -/
theorem exec_cleaned : ∀ (ls : List Label) {d : Daemon},
    (d.pc = .exited → Cleaned b d.sys) →
      (Daemon.exec o b env ls d).pc = .exited → Cleaned b (Daemon.exec o b env ls d).sys
  | [], _, h => h
  | l :: ls, d, h => by
    rw [exec_cons]
    refine exec_cleaned ls fun hx => ?_
    cases l with
    | main =>
      cases hm : mainStep o b env d with
      | none =>
        rw [step, hm] at hx ⊢
        exact h hx
      | some d' =>
        rw [step, hm] at hx ⊢
        obtain ⟨u, hc⟩ := mainStep_exited hm hx
        exact Backend.cleanup_cleaned hc
    | store op => exact h hx
    | script sc =>
      by_cases hl : d.pc = .listing
      · rw [step, if_pos hl] at hx
        exact absurd (hl.symm.trans hx) nofun
      · rw [step, if_neg hl] at hx ⊢
        exact h hx
    | signal =>
      refine h ?_
      simp only [step] at hx
      split at hx
      · cases hx
      · exact hx

end Daemon

/-- Over every run of `main` under any oracle and either backend: once `main` has returned,
    the forward chain of each family holds no jump and no chain of the registry is left;
    with the nftables backend both tables are deleted. -/
theorem exit_leaves_no_chain (o : Oracle) (b : Backend) (env : Env) (k₀ : Kernel) (db₀ : QubesDB)
    (ls : List Label) :
    (Daemon.exec o b env ls (Daemon.boot k₀ db₀)).pc = .exited →
      Cleaned b (Daemon.exec o b env ls (Daemon.boot k₀ db₀)).sys :=
  Daemon.exec_cleaned ls nofun

/-- The initial load installs `10.137.0.6`, `main` registers the watch and waits, and the
    signal makes it run `cleanup` and return. -/
def signalRun : List Label := [.main, .main, .main, .main, .signal, .main]

theorem exit_leaves_no_chain_signal :
    (Daemon.exec Oracle.allOk .iptables Daemon.noNameservers signalRun
        (Daemon.boot Kernel.fresh Daemon.acceptStoreSix)).pc = .exited ∧
      Cleaned .iptables (Daemon.exec Oracle.allOk .iptables Daemon.noNameservers signalRun
        (Daemon.boot Kernel.fresh Daemon.acceptStoreSix)).sys :=
  have hx : (Daemon.exec Oracle.allOk .iptables Daemon.noNameservers signalRun
      (Daemon.boot Kernel.fresh Daemon.acceptStoreSix)).pc = .exited := by decide
  ⟨hx, exit_leaves_no_chain _ _ _ _ _ _ hx⟩

end QubesFirewall
