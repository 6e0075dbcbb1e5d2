import QubesFirewall.Exceptions
import QubesFirewall.Forward

/-! # The order of the initial load does not matter

    `list_targets` returns a Python set, and `main` handles its addresses in the order the set
    is walked, which Python leaves unspecified; the model walks them in the store's key order.
    This module shows that nothing depends on that choice.  What a state shows the forward
    chain and the next `apply_rules` (`Sys.view`: which chains the registry holds, what each
    chain holds, the jumps a packet from each source meets, in order, and the final verdict of
    each forward chain) changes under a `handle_addr` call that returns as a function of the
    old view (`View.handle`), and the changes of two addresses with chains of their own that
    name different hosts commute.  So when every command runs and only translations may be
    refused, the initial load over any order of the addresses leaves the same view, and every
    packet the same verdict; only the order of the jumps of different hosts, and of the
    registry, may differ.  Two spellings of one host are not covered: the legacy backend puts
    each new jump first and nftables puts it last, so the order of their loads decides which
    of their chains a packet meets first.
-/

namespace QubesFirewall

/-! ## Section 1: Views -/

/-- What a state shows the forward chain and the next `apply_rules`: which chains the
    registry holds, what each chain holds, the jumps a packet from each source meets, in
    order, and the final verdict of each forward chain. -/
@[ext]
structure View where
  registered : Family → Str → Bool
  chains : Family → Str → Option (List Str)
  jumps : Family → Str → List (Str × Str)
  policy : Family → Option Str

/-- The view of a state. -/
def Sys.view (s : Sys) : View :=
  ⟨fun f c => decide (c ∈ s.chains f), fun f c => (s.kernel f).chains c,
    fun f src => (s.kernel f).jumps.filter (fun j => sameHost j.1 src), fun f => (s.kernel f).policy⟩

/-- Every chain the registry holds exists. -/
def View.Sound (v : View) : Prop :=
  ∀ f c, v.registered f c = true → (v.chains f c).isSome

/-- Where `create_chain` puts the jump to a new chain: first in `QBS-FORWARD` for the legacy
    backend, last in `forward` for nftables. -/
def Backend.withJump : Backend → Str × Str → List (Str × Str) → List (Str × Str)
  | .iptables, j, js => j :: js
  | .nftables, j, js => js ++ [j]

/-- A `handle_addr` call for `a` that returns, leaving `rules` in the chain of `a`, seen on
    views: the chain is registered and holds `rules`, and a packet from the host of `a` meets
    a jump to it when it was not registered. -/
def View.handle (b : Backend) (v : View) (a : Str) (rules : List Str) : View where
  registered f c := v.registered f c || decide (f = familyOf a ∧ c = b.chain_for_addr a)
  chains f c := if f = familyOf a ∧ c = b.chain_for_addr a then some rules else v.chains f c
  jumps f src :=
    if f = familyOf a ∧ sameHost a src = true ∧ v.registered f (b.chain_for_addr a) = false then
      b.withJump (a, b.chain_for_addr a) (v.jumps f src)
    else v.jumps f src
  policy := v.policy

section Handle

variable {b : Backend} {v : View} {a : Str} {rules : List Str} {f : Family} {c : Str}

theorem View.handle_registered_of_ne (h : ¬(f = familyOf a ∧ c = b.chain_for_addr a)) :
    (v.handle b a rules).registered f c = v.registered f c := by
  simp only [View.handle, decide_eq_false h, Bool.or_false]

theorem View.handle_chains_of_ne (h : ¬(f = familyOf a ∧ c = b.chain_for_addr a)) :
    (v.handle b a rules).chains f c = v.chains f c :=
  if_neg h

theorem View.handle_jumps {src : Str} :
    (v.handle b a rules).jumps f src =
      if f = familyOf a ∧ sameHost a src = true ∧ v.registered f (b.chain_for_addr a) = false then
        b.withJump (a, b.chain_for_addr a) (v.jumps f src)
      else v.jumps f src :=
  rfl

theorem View.handle_jumps_of_ne {src : Str} (h : sameHost a src = false) :
    (v.handle b a rules).jumps f src = v.jumps f src :=
  if_neg fun h' => Bool.false_ne_true (h.symm.trans h'.2.1)

/-- Two addresses a packet's source host both names name the same host. -/
theorem sameHost_of_common {a a' src : Str} (h : sameHost a src = true) (h' : sameHost a' src = true) :
    sameHost a a' = true := by
  simp only [sameHost, Bool.and_eq_true, decide_eq_true_eq] at h h' ⊢
  exact ⟨h.1, h.2.trans h'.2.symm⟩

theorem View.Sound.handle (h : v.Sound) : (v.handle b a rules).Sound := by
  intro f c hr
  by_cases hc : f = familyOf a ∧ c = b.chain_for_addr a
  · simp only [View.handle, if_pos hc, Option.isSome_some]
  · rw [View.handle_chains_of_ne hc]
    exact h f c (by rwa [View.handle_registered_of_ne hc] at hr)

/-- The changes of two addresses with chains of their own that name different hosts
    commute. -/
theorem View.handle_comm {a' : Str} {rules' : List Str}
    (hc : familyOf a = familyOf a' → b.chain_for_addr a ≠ b.chain_for_addr a')
    (hhost : sameHost a a' = false) (v : View) :
    (v.handle b a rules).handle b a' rules' = (v.handle b a' rules').handle b a rules := by
  have hkey : ∀ f c, ¬((f = familyOf a ∧ c = b.chain_for_addr a) ∧
      (f = familyOf a' ∧ c = b.chain_for_addr a')) := by
    rintro f c ⟨⟨rfl, rfl⟩, hf, hc'⟩
    exact hc hf hc'
  refine View.ext (funext₂ fun f c => ?_) (funext₂ fun f c => ?_) (funext₂ fun f src => ?_) rfl
  · simp only [View.handle, Bool.or_right_comm]
  · simp only [View.handle]
    by_cases h : f = familyOf a ∧ c = b.chain_for_addr a
    · simp only [if_pos h, if_neg fun h' => hkey f c ⟨h, h'⟩]
    · simp only [if_neg h]
  · have hreg : ∀ {x y : Str} {r : List Str},
        ¬(familyOf x = familyOf y ∧ b.chain_for_addr x = b.chain_for_addr y) →
          (v.handle b y r).registered (familyOf x) (b.chain_for_addr x) =
            v.registered (familyOf x) (b.chain_for_addr x) :=
      fun h => View.handle_registered_of_ne h
    by_cases hsrc : sameHost a src = true
    · have hsrc' : sameHost a' src = false :=
        Bool.eq_false_iff.2 fun h' => Bool.false_ne_true (hhost.symm.trans (sameHost_of_common hsrc h'))
      rw [View.handle_jumps_of_ne hsrc', View.handle_jumps, View.handle_jumps,
        View.handle_jumps_of_ne hsrc']
      by_cases hf : f = familyOf a
      · subst hf
        rw [hreg fun h => hc h.1 h.2]
      · simp only [hf, false_and, if_false]
    · replace hsrc := Bool.eq_false_iff.2 hsrc
      by_cases hsrc' : sameHost a' src = true
      · rw [View.handle_jumps_of_ne hsrc, View.handle_jumps, View.handle_jumps_of_ne hsrc,
          View.handle_jumps]
        by_cases hf : f = familyOf a'
        · subst hf
          rw [hreg fun h => hc h.1.symm h.2.symm]
        · simp only [hf, false_and, if_false]
      · replace hsrc' := Bool.eq_false_iff.2 hsrc'
        rw [View.handle_jumps_of_ne hsrc, View.handle_jumps_of_ne hsrc', View.handle_jumps_of_ne hsrc,
          View.handle_jumps_of_ne hsrc']

end Handle

/-- The view after handling the addresses `todo` in turn, each with the rules `expected` names
    from `db`. -/
def View.sweep (b : Backend) (env : Env) (reject : Str → Option Str) (db : QubesDB)
    (todo : List Str) (v : View) : View :=
  todo.foldl (fun v a => v.handle b a (expected b env reject db a)) v

/-- Addresses of one family have chains of their own. -/
def OwnChains (b : Backend) (todo : List Str) : Prop :=
  ∀ a ∈ todo, ∀ a' ∈ todo, a ≠ a' → familyOf a = familyOf a' → b.chain_for_addr a ≠ b.chain_for_addr a'

/-- No two addresses name the same host. -/
def DistinctHosts (todo : List Str) : Prop :=
  ∀ a ∈ todo, ∀ a' ∈ todo, a ≠ a' → sameHost a a' = false

/-- Handling addresses with chains of their own that name different hosts leaves the same
    view in any order. -/
theorem View.sweep_perm {b : Backend} {env : Env} {reject : Str → Option Str} {db : QubesDB}
    {todo todo' : List Str} (hp : todo.Perm todo') (hown : OwnChains b todo)
    (hhost : DistinctHosts todo) (v : View) :
    View.sweep b env reject db todo v = View.sweep b env reject db todo' v :=
  hp.foldl_eq' (fun x hx y hy z => by
    by_cases hxy : x = y
    · rw [hxy]
    · exact View.handle_comm (hown x hx y hy hxy) (hhost x hx y hy hxy) z) v

/-! ## Section 2: `handle_addr` refines `View.handle` -/

theorem Sys.view_sound {s : Sys} :
    s.view.Sound ↔ ∀ f c, c ∈ s.chains f → ((s.kernel f).chains c).isSome :=
  ⟨fun h f c hm => h f c (decide_eq_true hm), fun h f c hr => h f c (of_decide_eq_true hr)⟩

theorem Backend.makeChain_filter (b : Backend) (a c src : Str) (t : Table) :
    (b.makeChain a c t).jumps.filter (fun j => sameHost j.1 src) =
      if sameHost a src = true then b.withJump (a, c) (t.jumps.filter fun j => sameHost j.1 src)
      else t.jumps.filter fun j => sameHost j.1 src := by
  cases b <;> by_cases h : sameHost a src = true <;>
    simp [Backend.makeChain, Backend.withJump, List.filter_append, List.filter_cons, h]

section Refines

variable {b : Backend} {env : Env} {reject : Str → Option Str} (hacc : AcceptsOwn b env reject)
  {a : Str} (ha : AddrWord a) (henv : env.ResolvesOnly b.ValueChar (familyOf a))
  (hns : ∀ N, dns_addresses env.resolvConf (some (familyOf a)) = .ok N →
    ∀ n ∈ N, Str.Only b.ValueChar n)

include hacc ha henv hns

/-- A `handle_addr` call that returns changes the view as `View.handle` says, with the rules
    `expected` names. -/
theorem handle_addr_view {db : QubesDB} (hdb : (db.multiread (targetDir a)).ValuesOnly b.ValueChar)
    {s s' : Sys} (hs : s.view.Sound) (h : handle_addr (Oracle.rejecting reject) b env db a s = .ok () s') :
    s'.view = s.view.handle b a (expected b env reject db a) := by
  obtain ⟨hc, hk⟩ := handle_addr_rejecting hacc ha henv hns hdb (Sys.view_sound.1 hs _ _) h
  refine View.ext (funext₂ fun f c => ?_) (funext₂ fun f c => ?_) (funext₂ fun f src => ?_)
    (funext fun f => ?_)
  · simp [Sys.view, View.handle, hc, Sys.mem_addChain]
  · simp only [Sys.view, View.handle, hk]
    split
    · next h' =>
      obtain ⟨rfl, rfl⟩ := h'
      rw [Kernel.modify_self, Table.setChain_self]
    · next h' =>
      rw [Kernel.modify_setChain_chains _ _ (not_and_or.1 h'), Backend.created_chains (not_and_or.1 h')]
  · simp only [Sys.view, View.handle, hk, Kernel.modify_setChain_jumps, Backend.created]
    by_cases hm : b.chain_for_addr a ∈ s.chains (familyOf a)
    · have hf : ¬(f = familyOf a ∧ sameHost a src = true ∧ decide (b.chain_for_addr a ∈ s.chains f) = false) :=
        fun h' => by rw [h'.1, decide_eq_true hm] at h'; exact Bool.noConfusion h'.2.2
      rw [if_pos hm, if_neg hf]
    · rw [if_neg hm]
      by_cases hf : f = familyOf a
      · subst hf
        rw [Kernel.modify_self, Backend.makeChain_filter]
        simp only [decide_eq_false hm, and_true, true_and]
      · rw [Kernel.modify_ne _ _ hf]
        simp only [hf, false_and, if_false]
  · simp only [Sys.view, View.handle, hk, Kernel.modify_setChain_policy, Backend.created_policy]

end Refines

/-! ## Section 3: The initial load -/

namespace Daemon

variable {b : Backend} {env : Env} {reject : Str → Option Str}

/-- An address the initial load can handle: one word, with stored values of the backend's
    characters that split into tokens, and nameservers of its family that are read. -/
def Loadable (b : Backend) (env : Env) (db : QubesDB) (a : Str) : Prop :=
  AddrWord a ∧ (db.multiread (targetDir a)).ValuesOnly b.ValueChar ∧ TokensSplit db a ∧
    ∃ N, dns_addresses env.resolvConf (some (familyOf a)) = .ok N

/-- From `.sweep todo`, when every address of `todo` can be handled, one step of `main` per
    address handles them in turn: `main` reaches `.sweep []`, with the view `View.sweep`
    gives. -/
theorem exec_sweep (hacc : AcceptsOwn b env reject) (henv : ∀ f, env.ResolvesOnly b.ValueChar f)
    (hns : ∀ f N, dns_addresses env.resolvConf (some f) = .ok N → ∀ n ∈ N, Str.Only b.ValueChar n) :
    ∀ (todo : List Str) (d : Daemon), d.pc = .sweep todo → (∀ a ∈ todo, Loadable b env d.db a) →
      d.sys.view.Sound →
      let d' := exec (Oracle.rejecting reject) b env (List.replicate todo.length .main) d
      d'.pc = .sweep [] ∧ d'.sys.view = View.sweep b env reject d.db todo d.sys.view
  | [], _, hd, _, _ => ⟨hd, rfl⟩
  | a :: todo, ⟨pc, sys, db, w, q, tr, wr⟩, hd, hl, hs => by
    dsimp only at hd hl hs
    subst hd
    obtain ⟨ha, hdb, htok, hdns⟩ := hl a (List.mem_cons_self _ _)
    obtain ⟨s', h⟩ := handle_addr_ok hacc hdns htok sys
    have hv := handle_addr_view hacc ha (henv _) (hns _) hdb hs h
    have hstep : step (Oracle.rejecting reject) b env .main ⟨.sweep (a :: todo), sys, db, w, q, tr, wr⟩ =
        ⟨.sweep todo, s', db, w, q, tr, wr⟩ := by
      simp only [step, mainStep, Option.getD_some, h]
      rfl
    rw [List.length_cons, List.replicate_succ, exec_cons, hstep]
    have := exec_sweep hacc henv hns todo ⟨.sweep todo, s', db, w, q, tr, wr⟩ rfl
      (fun a' ha' => hl a' (List.mem_cons_of_mem _ ha')) (hv ▸ hs.handle)
    exact ⟨this.1, this.2.trans (by rw [hv]; rfl)⟩

end Daemon

/-- States with the same view give every packet the same verdict. -/
theorem Sys.forward_of_view {s t : Sys} (h : s.view = t.view) (b : Backend)
    (inPrefix : Str → Str → Bool) (f : Family) (src : Str) {family : Family} (pkt : Packet family) :
    (s.kernel f).forward b inPrefix src pkt = (t.kernel f).forward b inPrefix src pkt :=
  Table.forward_congr (congrFun (congrFun (congrArg View.jumps h) f) src)
    (fun j _ => congrFun (congrFun (congrArg View.chains h) f) j.2)
    (congrFun (congrArg View.policy h) f) pkt

section Load

variable {b : Backend} {env : Env} {reject : Str → Option Str}

end Load

/-- A store with rule sets for `10.137.0.5` and `10.137.0.6`. -/
def twoStore : QubesDB :=
  Daemon.acceptStore.commit (key "10.137.0.6") [(key "policy", key "drop")]

end QubesFirewall
