import QubesFirewall.Python

/-! # Reading a rule set from QubesDB

    `FirewallWorker.read_rules` reads every entry under `/qubes-firewall/<SA>/`, keeps the
    leaf of each path, takes the `policy` leaf out and parses every other leaf, in sorted
    order, as one rule: a four-digit leaf whose value is a space-separated list of `k=v`
    tokens with an `action` among them.  The policy becomes a last rule `{action: policy}`.

    The parse of the tokens is `dict(elem.split('=') for elem in rule.split(' '))`, which
    raises `ValueError`, not `RuleParseError`, on a token with no `=` or with two; the
    module ends with that input.
-/

namespace QubesFirewall

/-! ## Section 1: The store -/

/-- The QubesDB key/value store: its paths and their values. -/
abbrev QubesDB := Dict

namespace QubesDB

/-- `qdb.multiread(p)`: every entry whose path starts with `p`. -/
def multiread (db : QubesDB) (p : Str) : Dict :=
  ⟨db.items.filter fun kv => Str.startswith kv.1 p,
    (List.Sublist.map _ (List.filter_sublist _)).nodup db.nodup⟩

/-- `qdb.list(p)`: every path that starts with `p`. -/
def list (db : QubesDB) (p : Str) : List Str :=
  db.keys.filter fun k => Str.startswith k p

end QubesDB

/-- The directory of the firewall configuration, `/qubes-firewall/`. -/
def firewallDir : Str := "/qubes-firewall/".toList

/-- `'/qubes-firewall/{}/'.format(target)`. -/
def targetDir (target : Str) : Str := firewallDir ++ target ++ ['/']

/-! ## Section 2: `read_rules` -/

/-- `dict(seq)` over a sequence of sequences: each element must have length two. -/
def Dict.fromSeq (seq : List (List Str)) : Except PyExc Dict :=
  seq.foldlM (fun d elem =>
    match elem with
    | [k, v] => .ok (d.insert k v)
    | _ => .error .valueError) Dict.empty

/-- `dict(elem.split('=') for elem in rule.split(' '))`. -/
def tokenDict (rule : Str) : Except PyExc Dict :=
  Dict.fromSeq ((Str.split rule ' ').map fun elem => Str.split elem '=')

/-- The body of the loop of `read_rules` for one `(ruleno, rule)` item. -/
def parseRule (ruleno rule : Str) : Except PyExc Dict := do
  if ruleno.length ≠ 4 ∨ !Str.isdigit ruleno then
    throw (.ruleParseError ("Unexpected non-rule found: ".toList ++ ruleno ++ ['='] ++ rule))
  let rule_dict ← tokenDict rule
  if !rule_dict.contains "action".toList then
    throw (.ruleParseError ("Rule '".toList ++ rule ++ "' lack action".toList))
  pure rule_dict

/-- Python 2 order on `(key, value)` pairs, as `sorted(d.items())` uses it. -/
def itemLe (a b : Str × Str) : Bool := if a.1 = b.1 then Str.le a.2 b.2 else Str.le a.1 b.1

/-- `sorted(d.items())`. -/
def sortedItems (d : Dict) : List (Str × Str) := d.items.insertionSort fun a b => itemLe a b

/-- `FirewallWorker.read_rules`: the rules of `target`, its policy last. -/
def read_rules (db : QubesDB) (target : Str) : Except PyExc (List Dict) := do
  let entries := db.multiread (targetDir target)
  -- drop full path
  let leaves ← entries.items.mapM fun kv => do
    let leaf ← getIdx (Str.split kv.1 '/') 3
    pure (leaf, kv.2)
  let entries := Dict.ofList leaves
  if !entries.contains "policy".toList then
    throw (.ruleParseError "No 'policy' defined".toList)
  let policy := (entries.get "policy".toList).getD []
  let entries := entries.erase "policy".toList
  let rules ← (sortedItems entries).mapM fun kv => parseRule kv.1 kv.2
  pure (rules ++ [Dict.single "action".toList policy])

/-- `FirewallWorker.list_targets`: the second path component of every firewall path. -/
def list_targets (db : QubesDB) : Except PyExc (List Str) := do
  let ts ← (db.list firewallDir).mapM fun t => getIdx (Str.split t '/') 2
  pure ts.dedup

/-- `FirewallWorker.is_ip6`: an address with a colon is IPv6. -/
def is_ip6 (addr : Str) : Bool := decide (addr.count ':' > 0)

/-! ## Section 3: What `read_rules` returns

    Every value of a rule `read_rules` returns is a piece of a value the store holds under
    the address's directory: the tokens of a rule value, split at `=`, and the policy. -/

namespace Dict

variable {good : Char → Prop}

theorem mem_setValue {k v : Str} {kv : Str × Str} :
    ∀ {l : List (Str × Str)}, kv ∈ setValue k v l → kv = (k, v) ∨ kv ∈ l
  | [], h => absurd h (List.not_mem_nil _)
  | x :: l, h => by
    unfold setValue at h
    split at h
    · rcases List.mem_cons.1 h with h | h
      · exact .inl h
      · exact .inr (List.mem_cons_of_mem _ h)
    · rcases List.mem_cons.1 h with h | h
      · exact .inr (h ▸ List.mem_cons_self _ _)
      · exact (mem_setValue h).imp_right (List.mem_cons_of_mem _)

theorem ValuesOnly.insert {d : Dict} {k v : Str} (hd : d.ValuesOnly good) (hv : Str.Only good v) :
    (d.insert k v).ValuesOnly good := by
  unfold Dict.insert
  split
  · intro kv hkv
    rcases mem_setValue hkv with rfl | h
    · exact hv
    · exact hd kv h
  · intro kv hkv
    rcases List.mem_append.1 hkv with h | h
    · exact hd kv h
    · rw [List.mem_singleton.1 h]
      exact hv

theorem ValuesOnly.foldl_insert :
    ∀ {l : List (Str × Str)} {d : Dict}, d.ValuesOnly good → (∀ kv ∈ l, Str.Only good kv.2) →
      (l.foldl (fun d kv => d.insert kv.1 kv.2) d).ValuesOnly good
  | [], _, hd, _ => hd
  | kv :: l, d, hd, hl =>
    ValuesOnly.foldl_insert (l := l) (d := d.insert kv.1 kv.2)
      (hd.insert (hl kv (List.mem_cons_self _ _))) fun x hx => hl x (List.mem_cons_of_mem _ hx)

theorem ValuesOnly.erase {d : Dict} (hd : d.ValuesOnly good) (k : Str) :
    (d.erase k).ValuesOnly good :=
  fun kv hkv => hd kv (List.mem_of_mem_filter hkv)

/-- `dict(seq)` holds only second elements of `seq`. -/
theorem fromSeq_valuesOnly {seq : List (List Str)} (hs : ∀ elem ∈ seq, ∀ x ∈ elem, Str.Only good x)
    {d : Dict} (h : Dict.fromSeq seq = .ok d) : d.ValuesOnly good := by
  unfold Dict.fromSeq at h
  have hd₀ : Dict.empty.ValuesOnly good := fun _ h => absurd h (List.not_mem_nil _)
  revert h hd₀
  generalize Dict.empty = d₀
  induction seq generalizing d₀ with
  | nil => intro h hd₀; cases h; exact hd₀
  | cons elem seq ih =>
    intro h hd₀
    rw [List.foldlM_cons] at h
    obtain _ | ⟨k, _ | ⟨v, _ | ⟨w, rest⟩⟩⟩ := elem
    · cases h
    · cases h
    · exact ih (fun e he => hs e (List.mem_cons_of_mem _ he)) _ h
        (hd₀.insert (hs _ (List.mem_cons_self _ _) v (by simp)))
    · cases h

end Dict

variable {good : Char → Prop}

theorem tokenDict_valuesOnly {rule : Str} (hr : Str.Only good rule) {d : Dict}
    (h : tokenDict rule = .ok d) : d.ValuesOnly good := by
  refine Dict.fromSeq_valuesOnly (fun elem he x hx => ?_) h
  obtain ⟨tok, ht, rfl⟩ := List.mem_map.1 he
  exact hr.mono ((Str.subset_of_mem_split hx).trans (Str.subset_of_mem_split ht))

theorem tokenDict_of_parseRule {ruleno rule : Str} {d : Dict} (h : parseRule ruleno rule = .ok d) :
    tokenDict rule = .ok d := by
  simp only [parseRule] at h
  split_ifs at h
  · cases h
  · obtain ⟨_, -, h⟩ := bind_eq_ok.1 h
    obtain ⟨d', hd', h⟩ := bind_eq_ok.1 h
    split at h
    · cases h
    · obtain ⟨_, -, h⟩ := bind_eq_ok.1 h
      rw [hd', pure_eq_ok.1 h]

/-- Every value of every rule `read_rules` returns is made of characters of the values
    stored under the address's directory. -/
theorem read_rules_valuesOnly {db : QubesDB} {target : Str}
    (hdb : (db.multiread (targetDir target)).ValuesOnly good) {rules : List Dict}
    (h : read_rules db target = .ok rules) : ∀ r ∈ rules, r.ValuesOnly good := by
  simp only [read_rules] at h
  obtain ⟨leaves, hleaves, h⟩ := bind_eq_ok.1 h
  have hl : ∀ kv ∈ leaves, Str.Only good kv.2 := fun kv hkv => by
    obtain ⟨x, hx, hxkv⟩ := exists_of_forall₂_mem (mapM_eq_ok.1 hleaves) hkv
    obtain ⟨leaf, -, hxkv⟩ := bind_eq_ok.1 hxkv
    rw [← pure_eq_ok.1 hxkv]
    exact hdb x hx
  have hent : (Dict.ofList leaves).ValuesOnly good :=
    Dict.ValuesOnly.foldl_insert (fun _ h => absurd h (List.not_mem_nil _)) hl
  split at h
  · cases h
  · obtain ⟨_, -, h⟩ := bind_eq_ok.1 h
    obtain ⟨rs, hrs, h⟩ := bind_eq_ok.1 h
    rw [← pure_eq_ok.1 h]
    intro r hr
    rcases List.mem_append.1 hr with hr | hr
    · obtain ⟨kv, hkv, hkr⟩ := exists_of_forall₂_mem (mapM_eq_ok.1 hrs) hr
      exact tokenDict_valuesOnly ((hent.erase _) kv ((List.perm_insertionSort _ _).mem_iff.1 hkv))
        (tokenDict_of_parseRule hkr)
    · rw [List.mem_singleton.1 hr]
      intro kv hkv
      rw [List.mem_singleton.1 hkv]
      show Str.Only good (((Dict.ofList leaves).get "policy".toList).getD [])
      cases hp : (Dict.ofList leaves).get "policy".toList with
      | none => exact fun _ h => absurd h (List.not_mem_nil _)
      | some v => exact hent.get hp

/-! ## Section 4: The directories of addresses

    Addresses without `/` have directories that no path shares: a path below the directory
    of one is below no other's.  So a write under one address leaves every other address's
    part of the store as it was, and `list_targets` names every address with a path. -/

/-- The components of a firewall path: empty, `qubes-firewall`, then those of the rest. -/
theorem split_firewallDir (x : Str) :
    Str.split (firewallDir ++ x) '/' = [] :: "qubes-firewall".toList :: Str.split x '/' := by
  rw [show firewallDir ++ x = [] ++ '/' :: ("qubes-firewall".toList ++ '/' :: x) from rfl,
    Str.split_append_cons, Str.split_append_cons, Str.split_of_not_mem (by decide)]
  rfl

theorem eq_of_prefix_slash : ∀ {a a' : Str}, '/' ∉ a → '/' ∉ a' → a ++ ['/'] <+: a' ++ ['/'] → a = a'
  | [], [], _, _, _ => rfl
  | [], c :: a', _, ha', h => absurd ((List.cons_prefix_cons.1 h).1 ▸ List.mem_cons_self c a') ha'
  | c :: a, [], ha, _, h => absurd ((List.cons_prefix_cons.1 h).1 ▸ List.mem_cons_self c a) ha
  | c :: a, c' :: a', ha, ha', h => by
    obtain ⟨rfl, htail⟩ := List.cons_prefix_cons.1 h
    rw [eq_of_prefix_slash (fun h' => ha (List.mem_cons_of_mem c h'))
      (fun h' => ha' (List.mem_cons_of_mem c h')) htail]

/-- Two addresses without `/` whose directories a path is below are the same address. -/
theorem eq_of_prefix_targetDir {a a' k : Str} (ha : '/' ∉ a) (ha' : '/' ∉ a')
    (h : targetDir a <+: k) (h' : targetDir a' <+: k) : a = a' := by
  have hdir : ∀ {x y : Str}, targetDir x <+: targetDir y → x ++ ['/'] <+: y ++ ['/'] := fun h =>
    (List.prefix_append_right_inj firewallDir).1 (by simpa only [targetDir, List.append_assoc] using h)
  rcases List.prefix_or_prefix_of_prefix h h' with h | h
  · exact eq_of_prefix_slash ha ha' (hdir h)
  · exact (eq_of_prefix_slash ha' ha (hdir h)).symm

/-- The path `/qubes-firewall/<a'>` of an address without `/` is below no directory. -/
theorem targetDir_not_prefix_firewallDir {a a' : Str} (ha' : '/' ∉ a') : ¬ targetDir a <+: firewallDir ++ a' := by
  intro h
  rw [targetDir, List.append_assoc, List.prefix_append_right_inj] at h
  exact ha' (h.subset (List.mem_append_right a (List.mem_singleton_self '/')))

theorem QubesDB.multiread_insert {db : QubesDB} {p k v : Str} (hk : ¬ p <+: k) :
    QubesDB.multiread (db.insert k v) p = db.multiread p :=
  Dict.ext_items (Dict.filter_insert (p := fun k => Str.startswith k p) (by
    show Str.startswith k p = false
    rw [Str.startswith, Bool.eq_false_iff]
    exact fun h => hk (List.isPrefixOf_iff_prefix.1 h)))

/-- `read_rules` reads nothing of the store but the address's directory. -/
theorem read_rules_congr {db db' : QubesDB} {a : Str}
    (h : db.multiread (targetDir a) = db'.multiread (targetDir a)) :
    read_rules db a = read_rules db' a := by
  simp only [read_rules, h]

/-- `list_targets` names every address without `/` that has a path in its directory. -/
theorem mem_list_targets {db : QubesDB} {a : Str} (ha : '/' ∉ a)
    (hne : (db.multiread (targetDir a)).items ≠ []) {ts : List Str} (h : list_targets db = .ok ts) :
    a ∈ ts := by
  obtain ⟨kv, hkv⟩ := List.exists_mem_of_ne_nil _ hne
  obtain ⟨hkv, hpre⟩ := List.mem_filter.1 hkv
  rw [Str.startswith, List.isPrefixOf_iff_prefix] at hpre
  obtain ⟨rest, hrest⟩ := hpre
  obtain ⟨ts₀, hts₀, h⟩ := bind_eq_ok.1 h
  rw [← pure_eq_ok.1 h, List.mem_dedup]
  have hlist : kv.1 ∈ db.list firewallDir := List.mem_filter.2 ⟨List.mem_map_of_mem _ hkv, by
    rw [Str.startswith, List.isPrefixOf_iff_prefix, ← hrest, targetDir, List.append_assoc,
      List.append_assoc]
    exact List.prefix_append _ _⟩
  obtain ⟨t, ht, hget⟩ := exists_of_forall₂_mem (mapM_eq_ok.1 hts₀).flip hlist
  rw [← hrest, targetDir, List.append_assoc, List.append_assoc, split_firewallDir,
    List.singleton_append, Str.split_append_cons, Str.split_of_not_mem ha,
    List.singleton_append,
    show getIdx ([] :: "qubes-firewall".toList :: a :: Str.split rest '/') 2 = .ok a by
      simp [getIdx]] at hget
  cases hget
  exact ht

/-! ## Section 5: A token without `=` -/

/-- The store of one address, `10.137.0.5`, with policy `drop` and rule `0000` = `action`. -/
def tokenWithoutEq : QubesDB :=
  ⟨[("/qubes-firewall/10.137.0.5/policy".toList, "drop".toList),
    ("/qubes-firewall/10.137.0.5/0000".toList, "action".toList)], by decide⟩

/-- A rule value whose token has no `=` makes `read_rules` raise `ValueError`: the
    token parse is outside every `RuleParseError` check. -/
theorem read_rules_tokenWithoutEq :
    read_rules tokenWithoutEq "10.137.0.5".toList = .error .valueError := by
  decide

end QubesFirewall
