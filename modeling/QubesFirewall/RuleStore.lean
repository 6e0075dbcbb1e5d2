import QubesFirewall.Daemon

/-! # A rule set in the store, read back

    The store's writers keep the rule set of an address under its directory: the leaf
    `policy` holds the default verdict, and the leaf `NNNN`, the zero-padded number of a
    rule, holds the rule as space-separated `k=v` tokens.  `read_rules` reads back exactly
    what a writer commits in this layout: the rules in their order, then `{action: policy}`,
    when no key or value of a rule holds a space or `=`, every rule has an action, there are
    at most ten thousand rules, and the address holds no `/`.
-/

namespace QubesFirewall

/-! ## Section 1: The writers' layout -/

/-- The character of the decimal digit `d`. -/
def digitChar (d : Nat) : Char := Char.ofNat (48 + d)

/-- `'{:04}'.format(n)`: the leaf of rule number `n`, for `n < 10000`. -/
def ruleLeaf (n : Nat) : Str := [n / 1000 % 10, n / 100 % 10, n / 10 % 10, n % 10].map digitChar

/-- A rule as a writer stores it: its `k=v` tokens, joined by spaces. -/
def ruleText (r : Dict) : Str := Str.join [' '] (r.items.map fun kv => kv.1 ++ '=' :: kv.2)

/-- The rules `rs` under their numbers, the first numbered `n`. -/
def ruleItems : Nat → List Dict → List (Str × Str)
  | _, [] => []
  | n, r :: rs => (ruleLeaf n, ruleText r) :: ruleItems (n + 1) rs

/-- What a writer commits for a rule set: the policy, then each rule under its number. -/
def ruleEntries (rules : List Dict) (policy : Str) : List (Str × Str) :=
  ("policy".toList, policy) :: ruleItems 0 rules

/-- A rule the layout carries: it has an action, and no key or value holds a space or `=`. -/
def StorableRule (r : Dict) : Prop :=
  r.contains "action".toList = true ∧
    ∀ kv ∈ r.items, ' ' ∉ kv.1 ∧ '=' ∉ kv.1 ∧ ' ' ∉ kv.2 ∧ '=' ∉ kv.2

instance : DecidablePred StorableRule := fun _ => inferInstanceAs (Decidable (_ ∧ _))

/-! ## Section 2: Rule numbers -/

section Digits

variable {d e : Nat}

theorem digitChar_eq_iff (hd : d < 10) (he : e < 10) : digitChar d = digitChar e ↔ d = e :=
  (by decide : ∀ d < 10, ∀ e < 10, (digitChar d = digitChar e ↔ d = e)) d hd e he

theorem digitChar_lt (hd : d < 10) (he : e < 10) (h : d < e) : digitChar d < digitChar e :=
  (by decide : ∀ d < 10, ∀ e < 10, d < e → digitChar d < digitChar e) d hd e he h

theorem isDigit_digitChar (hd : d < 10) : (digitChar d).isDigit = true :=
  (by decide : ∀ d < 10, (digitChar d).isDigit = true) d hd

theorem digitChar_ne_slash (hd : d < 10) : digitChar d ≠ '/' :=
  (by decide : ∀ d < 10, digitChar d ≠ '/') d hd

theorem mod_ten_lt (n : Nat) : n % 10 < 10 := Nat.mod_lt _ (by decide)

end Digits

theorem ruleLeaf_length (n : Nat) : (ruleLeaf n).length = 4 := rfl

theorem ruleLeaf_isdigit (n : Nat) : Str.isdigit (ruleLeaf n) = true := by
  simp [ruleLeaf, Str.isdigit, isDigit_digitChar (mod_ten_lt _)]

theorem slash_not_mem_ruleLeaf (n : Nat) : '/' ∉ ruleLeaf n := by
  simp [ruleLeaf, (digitChar_ne_slash (mod_ten_lt _)).symm]

theorem ruleLeaf_ne_policy (n : Nat) : ruleLeaf n ≠ "policy".toList :=
  fun h => absurd (congrArg List.length h) (by simp [ruleLeaf])

/-- Rule numbers below ten thousand have distinct leaves. -/
theorem ruleLeaf_inj {i j : Nat} (hi : i < 10000) (hj : j < 10000) (h : ruleLeaf i = ruleLeaf j) :
    i = j := by
  simp only [ruleLeaf, List.map_cons, List.map_nil, List.cons.injEq,
    digitChar_eq_iff (mod_ten_lt _) (mod_ten_lt _), and_true] at h
  omega

/-- Python compares the leaves of rule numbers below ten thousand as the numbers. -/
theorem le_ruleLeaf {i j : Nat} (hij : i ≤ j) (hj : j < 10000) :
    Str.le (ruleLeaf i) (ruleLeaf j) = true := by
  simp only [ruleLeaf, List.map_cons, List.map_nil, Str.le]
  split_ifs <;>
    simp only [digitChar_eq_iff (mod_ten_lt _) (mod_ten_lt _)] at * <;>
    first | rfl | exact decide_eq_true (digitChar_lt (mod_ten_lt _) (mod_ten_lt _) (by omega))

/-! ## Section 3: The numbered rules -/

section Items

variable {good : Char → Prop}

theorem mem_ruleItems : ∀ {n : Nat} {rs : List Dict} {kv : Str × Str}, kv ∈ ruleItems n rs →
    ∃ m, n ≤ m ∧ m < n + rs.length ∧ kv.1 = ruleLeaf m
  | _, [], _, h => absurd h (List.not_mem_nil _)
  | n, r :: rs, kv, h => by
    rcases List.mem_cons.1 h with rfl | h
    · exact ⟨n, le_rfl, by simp, rfl⟩
    · obtain ⟨m, hm, hm', hk⟩ := mem_ruleItems h
      exact ⟨m, by omega, by simp only [List.length_cons]; omega, hk⟩

theorem nodup_ruleItems : ∀ {n : Nat} {rs : List Dict}, n + rs.length ≤ 10000 →
    ((ruleItems n rs).map Prod.fst).Nodup
  | _, [], _ => List.nodup_nil
  | n, r :: rs, h => by
    simp only [List.length_cons] at h
    refine List.nodup_cons.2 ⟨fun hm => ?_, nodup_ruleItems (by omega)⟩
    obtain ⟨kv, hkv, hk⟩ := List.mem_map.1 hm
    obtain ⟨m, hm, hm', hkm⟩ := mem_ruleItems hkv
    exact absurd (ruleLeaf_inj (by omega) (by omega) (hk ▸ hkm)) (by omega)

theorem sorted_ruleItems : ∀ {n : Nat} {rs : List Dict}, n + rs.length ≤ 10000 →
    (ruleItems n rs).Sorted fun a b => itemLe a b
  | _, [], _ => List.sorted_nil
  | n, r :: rs, h => by
    simp only [List.length_cons] at h
    refine List.sorted_cons.2 ⟨fun kv hkv => ?_, sorted_ruleItems (by omega)⟩
    obtain ⟨m, hm, hm', hk⟩ := mem_ruleItems hkv
    have hne : ruleLeaf n ≠ kv.1 := fun he => absurd (ruleLeaf_inj (by omega) (by omega) (he.trans hk))
      (by omega)
    rw [itemLe, if_neg hne, hk]
    exact le_ruleLeaf (by omega) (by omega)

theorem slash_not_mem_ruleEntries {rules : List Dict} {policy : Str} :
    ∀ kv ∈ ruleEntries rules policy, '/' ∉ kv.1 := by
  intro kv hkv
  rcases List.mem_cons.1 hkv with rfl | hkv
  · show '/' ∉ "policy".toList
    decide
  · obtain ⟨m, -, -, hk⟩ := mem_ruleItems hkv
    exact hk ▸ slash_not_mem_ruleLeaf m

theorem nodup_ruleEntries {rules : List Dict} {policy : Str} (hlen : rules.length ≤ 10000) :
    ((ruleEntries rules policy).map Prod.fst).Nodup := by
  refine List.nodup_cons.2 ⟨fun hm => ?_, nodup_ruleItems (by omega)⟩
  obtain ⟨kv, hkv, hk⟩ := List.mem_map.1 hm
  obtain ⟨m, -, -, hkm⟩ := mem_ruleItems hkv
  exact ruleLeaf_ne_policy m (hkm ▸ hk)

end Items

/-! ## Section 4: Parsing a stored rule -/

namespace Dict

theorem insert_items_of_not_mem {d : Dict} {k v : Str} (h : k ∉ d.keys) :
    (d.insert k v).items = d.items ++ [(k, v)] := by
  unfold insert
  rw [dif_neg]
  simpa [contains, keys, List.mem_map] using h

theorem foldl_insert_items : ∀ {l : List (Str × Str)} {d : Dict}, (d.keys ++ l.map Prod.fst).Nodup →
    (l.foldl (fun d kv => d.insert kv.1 kv.2) d).items = d.items ++ l
  | [], _, _ => (List.append_nil _).symm
  | kv :: l, d, h => by
    have hk : kv.1 ∉ d.keys := fun hm => List.disjoint_of_nodup_append h hm (List.mem_cons_self _ _)
    have hi := insert_items_of_not_mem (v := kv.2) hk
    rw [List.foldl_cons, foldl_insert_items (by
        rwa [keys, hi, List.map_append, List.append_assoc, List.map_singleton, List.singleton_append]),
      hi, List.append_assoc]
    rfl

/-- `dict(pairs)` over pairs with distinct keys keeps them in order. -/
theorem ofList_items {l : List (Str × Str)} (h : (l.map Prod.fst).Nodup) : (ofList l).items = l :=
  foldl_insert_items h

theorem fromSeq_pairs (l : List (Str × Str)) :
    fromSeq (l.map fun kv => [kv.1, kv.2]) = .ok (ofList l) := by
  unfold fromSeq ofList
  generalize empty = d
  induction l generalizing d with
  | nil => rfl
  | cons kv l ih => exact ih _

end Dict

theorem split_token {k v : Str} (hk : '=' ∉ k) (hv : '=' ∉ v) : Str.split (k ++ '=' :: v) '=' = [k, v] := by
  rw [Str.split_append_cons, Str.split_of_not_mem hk, Str.split_of_not_mem hv]
  rfl

/-- A rule stored in the layout parses back to itself. -/
theorem tokenDict_ruleText {r : Dict} (hr : StorableRule r) : tokenDict (ruleText r) = .ok r := by
  obtain ⟨hact, hkv⟩ := hr
  have hne : r.items.map (fun kv => kv.1 ++ '=' :: kv.2) ≠ [] := by
    intro h
    rw [List.map_eq_nil_iff] at h
    simp [Dict.contains, h] at hact
  have hsp : ∀ x ∈ r.items.map (fun kv => kv.1 ++ '=' :: kv.2), ' ' ∉ x := by
    intro x hx
    obtain ⟨kv, hm, rfl⟩ := List.mem_map.1 hx
    obtain ⟨hk, -, hv, -⟩ := hkv kv hm
    simp [hk, hv]
  have htok : (r.items.map fun kv => kv.1 ++ '=' :: kv.2).map (fun elem => Str.split elem '=') =
      r.items.map fun kv => [kv.1, kv.2] := by
    rw [List.map_map]
    refine List.map_congr_left fun kv hm => ?_
    obtain ⟨-, hk, -, hv⟩ := hkv kv hm
    exact split_token hk hv
  rw [tokenDict, ruleText, Str.split_join hsp hne, htok, Dict.fromSeq_pairs,
    Dict.ext_items (Dict.ofList_items r.nodup)]

theorem parseRule_ruleLeaf {r : Dict} (hr : StorableRule r) (n : Nat) :
    parseRule (ruleLeaf n) (ruleText r) = .ok r := by
  rw [parseRule, if_neg (by simp [ruleLeaf_length, ruleLeaf_isdigit]), tokenDict_ruleText hr]
  simp only [bind, Except.bind, hr.1]
  rfl

theorem mapM_parseRule_ruleItems : ∀ {n : Nat} {rs : List Dict}, (∀ r ∈ rs, StorableRule r) →
    (ruleItems n rs).mapM (fun kv => parseRule kv.1 kv.2) = .ok rs
  | _, [], _ => rfl
  | n, r :: rs, h => by
    simp only [ruleItems, List.mapM_cons, parseRule_ruleLeaf (h r (List.mem_cons_self _ _)),
      mapM_parseRule_ruleItems fun r' hr' => h r' (List.mem_cons_of_mem _ hr')]
    rfl

/-! ## Section 5: Reading back a commit -/

theorem mapM_map_eq_ok {ε α β : Type} {g : β → Except ε α} {f : α → β} :
    ∀ {l : List α}, (∀ x ∈ l, g (f x) = .ok x) → (l.map f).mapM g = .ok l
  | [], _ => rfl
  | x :: l, h => by
    rw [List.map_cons, List.mapM_cons, h x (List.mem_cons_self _ _),
      mapM_map_eq_ok fun y hy => h y (List.mem_cons_of_mem _ hy)]
    rfl

/-- The fourth component of a path below the directory of an address without `/`. -/
theorem getIdx_leaf {a l : Str} (ha : '/' ∉ a) (hl : '/' ∉ l) :
    getIdx (Str.split (targetDir a ++ l) '/') 3 = .ok l := by
  rw [targetDir, List.append_assoc, List.append_assoc, split_firewallDir, List.singleton_append,
    Str.split_append_cons, Str.split_of_not_mem ha, Str.split_of_not_mem hl]
  rfl

namespace QubesDB

/-- A commit for an address without `/` leaves under its directory exactly what it wrote, in
    order, when the leaves it writes are distinct. -/
theorem multiread_commit_self {db : QubesDB} {a : Str} (ha : '/' ∉ a) {entries : List (Str × Str)}
    (hn : (entries.map Prod.fst).Nodup) :
    ((db.commit a entries).multiread (targetDir a)).items =
      entries.map fun kv => (targetDir a ++ kv.1, kv.2) := by
  have hes : ∀ kv ∈ entries.map (fun kv => (targetDir a ++ kv.1, kv.2)),
      Str.startswith kv.1 (targetDir a) = true := by
    intro kv hkv
    obtain ⟨kv', -, rfl⟩ := List.mem_map.1 hkv
    exact List.isPrefixOf_iff_prefix.2 (List.prefix_append _ _)
  have hclear : ∀ kv ∈ (db.clear a).items, Str.startswith kv.1 (targetDir a) = false := by
    intro kv hkv
    simpa using (List.mem_filter.1 hkv).2
  have hkeys : (entries.map fun kv => (targetDir a ++ kv.1, kv.2)).map Prod.fst =
      (entries.map Prod.fst).map (targetDir a ++ ·) := by
    rw [List.map_map, List.map_map]
    rfl
  have hnd : ((db.clear a).keys ++
      (entries.map fun kv => (targetDir a ++ kv.1, kv.2)).map Prod.fst).Nodup := by
    refine List.nodup_append.2 ⟨(db.clear a).nodup, ?_, fun k hk hk' => ?_⟩
    · rw [hkeys]
      exact hn.map fun _ _ h => List.append_cancel_left h
    · obtain ⟨kv, hkv, rfl⟩ := List.mem_map.1 hk
      obtain ⟨kv', hkv', hk'⟩ := List.mem_map.1 hk'
      have h := hes kv' hkv'
      rw [hk', hclear kv hkv] at h
      cases h
  have hfold : entries.foldl (fun d kv => d.insert (targetDir a ++ kv.1) kv.2) (db.clear a) =
      (entries.map fun kv => (targetDir a ++ kv.1, kv.2)).foldl (fun d kv => d.insert kv.1 kv.2)
        (db.clear a) :=
    (List.foldl_map (fun kv => (targetDir a ++ kv.1, kv.2)) (fun d kv => Dict.insert d kv.1 kv.2)
      entries (db.clear a)).symm
  rw [commit, commitPath, multiread_insert (targetDir_not_prefix_firewallDir ha), hfold]
  simp only [multiread]
  rw [Dict.foldl_insert_items hnd, List.filter_append, List.filter_eq_self.2 hes,
    List.filter_eq_nil_iff.2 fun kv hkv h => Bool.false_ne_true ((hclear kv hkv).symm.trans h),
    List.nil_append]

end QubesDB

/-- `read_rules` reads a directory that holds a rule set in the store's layout, for an address
    without `/`: the rules in their order, then `{action: policy}`. -/
theorem read_rules_of_items {db : QubesDB} {a : Str} (ha : '/' ∉ a) {rules : List Dict}
    {policy : Str} (hr : ∀ r ∈ rules, StorableRule r) (hlen : rules.length ≤ 10000)
    (h : (db.multiread (targetDir a)).items =
      (ruleEntries rules policy).map fun kv => (targetDir a ++ kv.1, kv.2)) :
    read_rules db a = .ok (rules ++ [Dict.single "action".toList policy]) := by
  have hn : ((ruleEntries rules policy).map Prod.fst).Nodup := nodup_ruleEntries hlen
  have hdict : Dict.ofList (ruleEntries rules policy) = ⟨ruleEntries rules policy, hn⟩ :=
    Dict.ext_items (Dict.ofList_items hn)
  have hsorted : sortedItems (Dict.erase ⟨ruleEntries rules policy, hn⟩ "policy".toList) =
      ruleItems 0 rules := by
    have hf : (ruleItems 0 rules).filter (fun kv => decide (kv.1 ≠ "policy".toList)) =
        ruleItems 0 rules := List.filter_eq_self.2 fun kv hkv => by
      obtain ⟨m, -, -, hk⟩ := mem_ruleItems hkv
      simpa [hk] using ruleLeaf_ne_policy m
    rw [sortedItems, Dict.erase]
    dsimp only
    rw [ruleEntries, List.filter_cons_of_neg (by simp), hf]
    exact (sorted_ruleItems (by omega)).insertionSort_eq
  have hcont : Dict.contains ⟨ruleEntries rules policy, hn⟩ "policy".toList = true := rfl
  have hget : Dict.get ⟨ruleEntries rules policy, hn⟩ "policy".toList = some policy := rfl
  simp only [read_rules]
  rw [h, mapM_map_eq_ok fun kv hkv => by
    rw [getIdx_leaf ha (slash_not_mem_ruleEntries kv hkv)]; rfl]
  simp only [bind, Except.bind, hdict, hcont, hget, hsorted, mapM_parseRule_ruleItems hr,
    Bool.not_true, Bool.false_eq_true]
  rfl

/-- `read_rules` reads back the rule set a writer commits in the store's layout, for an
    address without `/`: the rules in their order, then `{action: policy}`. -/
theorem read_rules_commit {db : QubesDB} {a : Str} (ha : '/' ∉ a) {rules : List Dict}
    {policy : Str} (hr : ∀ r ∈ rules, StorableRule r) (hlen : rules.length ≤ 10000) :
    read_rules (db.commit a (ruleEntries rules policy)) a =
      .ok (rules ++ [Dict.single "action".toList policy]) :=
  read_rules_of_items ha hr hlen (QubesDB.multiread_commit_self ha (nodup_ruleEntries hlen))

/-- A rule allowing HTTPS. -/
def httpsRule : Dict :=
  ⟨[(key "action", key "accept"), (key "proto", key "tcp"), (key "dstports", key "443-443")],
    by decide⟩

/-- The rule allowing HTTPS, then policy `drop`, committed for `10.137.0.5` over an empty
    store, reads back. -/
theorem read_rules_commit_https :
    '/' ∉ key "10.137.0.5" ∧ (∀ r ∈ [httpsRule], StorableRule r) ∧ [httpsRule].length ≤ 10000 ∧
      read_rules (QubesDB.commit Dict.empty (key "10.137.0.5") (ruleEntries [httpsRule] (key "drop")))
        (key "10.137.0.5") = .ok [httpsRule, Dict.single "action".toList (key "drop")] :=
  have ha : '/' ∉ key "10.137.0.5" := by decide
  have hr : ∀ r ∈ [httpsRule], StorableRule r := by decide
  have hlen : [httpsRule].length ≤ 10000 := by decide
  ⟨ha, hr, hlen, read_rules_commit ha hr hlen⟩

end QubesFirewall
