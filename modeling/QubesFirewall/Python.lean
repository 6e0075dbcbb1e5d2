import Mathlib.Data.List.Basic
import Mathlib.Data.List.Dedup
import Mathlib.Data.List.Sort
import Mathlib.Data.List.Forall2
import Mathlib.Data.List.ReduceOption

/-! # Python 2 values used by `qubes-firewall`

    The service runs under `python2 -O`, where `str` is a byte string and `assert` is
    skipped.  A string is modelled as the list of its characters, so that every string
    method the service calls is a structurally recursive function with equation lemmas
    and small closed instances can be evaluated by `decide`.  A `dict` with string keys
    and values is its list of items with distinct keys, and the exceptions the service
    can raise are one inductive type.
-/

namespace QubesFirewall

/-- A Python 2 `str`. -/
abbrev Str := List Char

/-! ## Section 1: String methods -/

namespace Str

/-- `s.split(c)` for a one-character separator. -/
def split (s : Str) (c : Char) : List Str := s.splitOn c

/-- `s.replace(a, b)` for one-character arguments. -/
def replace (s : Str) (a b : Char) : Str := s.map fun x => if x = a then b else x

/-- `sep.join(xs)`. -/
def join (sep : Str) (xs : List Str) : Str := sep.intercalate xs

/-- `s.startswith(p)`. -/
def startswith (s p : Str) : Bool := p.isPrefixOf s

/-- The bytes `str.strip` removes. -/
def isWhitespace (c : Char) : Bool :=
  c = ' ' || c = '\t' || c = '\n' || c = '\r' || c = '\x0b' || c = '\x0c'

/-- `s.strip()`. -/
def strip (s : Str) : Str :=
  ((s.dropWhile isWhitespace).reverse.dropWhile isWhitespace).reverse

/-- `s.isdigit()` on a byte string: non-empty, and only ASCII digits. -/
def isdigit (s : Str) : Bool := !s.isEmpty && s.all Char.isDigit

/-- `s.upper()` on a byte string. -/
def upper (s : Str) : Str := s.map Char.toUpper

/-- `s[-n:]`. -/
def lastN (s : Str) (n : Nat) : Str := s.drop (s.length - n)

/-- Python 2 string comparison `s <= t`: lexicographic on bytes. -/
def le : Str → Str → Bool
  | [], _ => true
  | _ :: _, [] => false
  | a :: s, b :: t => if a = b then le s t else decide (a < b)

/-- `sorted(xs)` for a list of strings. -/
def sorted (xs : List Str) : List Str := xs.insertionSort fun a b => le a b

@[simp] theorem mem_sorted {xs : List Str} {x : Str} : x ∈ sorted xs ↔ x ∈ xs :=
  List.mem_insertionSort _

/-- Replacing a character the text lacks leaves the text as it is. -/
theorem replace_of_not_mem {s : Str} {a b : Char} (h : a ∉ s) : replace s a b = s :=
  (List.map_congr_left fun _ hx => if_neg (by rintro rfl; exact h hx)).trans (List.map_id _)

/-- Replacing `a` by a character `b` the text lacks is undone by replacing `b` by `a`. -/
theorem replace_replace {s : Str} {a b : Char} (h : b ∉ s) : replace (replace s a b) b a = s := by
  unfold replace
  rw [List.map_map]
  refine (List.map_congr_left fun x hx => ?_).trans (List.map_id _)
  by_cases hxa : x = a
  · simp [hxa]
  · simp [hxa, show x ≠ b from fun e => h (e ▸ hx)]

theorem not_mem_replace_of_not_mem {s : Str} {a b c : Char} (hc : c ∉ s) (hcb : c ≠ b) :
    c ∉ replace s a b := by
  simp only [replace, List.mem_map, not_exists, not_and]
  intro x hx
  split
  · exact fun e => hcb e.symm
  · rintro rfl
    exact hc hx

@[simp] theorem length_replace (s : Str) (a b : Char) : (replace s a b).length = s.length :=
  List.length_map _ _

theorem lastN_of_length_le {s : Str} {n : Nat} (h : s.length ≤ n) : lastN s n = s := by
  rw [lastN, Nat.sub_eq_zero_of_le h, List.drop_zero]

/-- `split` inverts `join` with the same separator when no piece contains it. -/
theorem split_join {c : Char} {xs : List Str} (hc : ∀ x ∈ xs, c ∉ x) (hne : xs ≠ []) :
    (join [c] xs).split c = xs :=
  List.splitOn_intercalate xs c hc hne

/-- `join` undoes `split` with the same separator. -/
theorem join_split (s : Str) (c : Char) : join [c] (s.split c) = s :=
  List.intercalate_splitOn s c

theorem split_ne_nil (s : Str) (c : Char) : s.split c ≠ [] :=
  List.splitOnP_ne_nil _ s

/-- A string without the separator splits into itself alone. -/
theorem split_of_not_mem {s : Str} {c : Char} (h : c ∉ s) : s.split c = [s] :=
  List.splitOnP_eq_single _ _ fun x hx hxc => h (by rwa [← eq_of_beq hxc])

/-- Replacing `a` by a separator `b` the text lacks splits it where it held `a`. -/
theorem split_replace {a b : Char} : ∀ {s : Str}, b ∉ s → split (replace s a b) b = split s a
  | [], _ => rfl
  | x :: s, h => by
    have ih : List.splitOnP (· == b) (replace s a b) = List.splitOnP (· == a) s :=
      split_replace fun hb => h (List.mem_cons_of_mem x hb)
    have hxb : x ≠ b := fun e => h (e ▸ List.mem_cons_self x s)
    unfold split replace at *
    rw [List.map_cons, List.splitOn, List.splitOnP_cons, List.splitOn, List.splitOnP_cons, ih]
    by_cases hx : x = a
    · simp [hx]
    · simp [hx, hxb]

/-- Every character of `s` satisfies `good`. -/
def Only (good : Char → Prop) (s : Str) : Prop := ∀ c ∈ s, good c

instance {good : Char → Prop} [DecidablePred good] : DecidablePred (Only good) :=
  fun s => inferInstanceAs (Decidable (∀ c ∈ s, good c))

theorem only_append {good : Char → Prop} {s t : Str} :
    Only good (s ++ t) ↔ Only good s ∧ Only good t := by
  simp only [Only, List.mem_append, or_imp, forall_and]

theorem Only.mono {good : Char → Prop} {s t : Str} (ht : Only good t) (h : s ⊆ t) :
    Only good s := fun c hc => ht c (h hc)

theorem Only.imp {good good' : Char → Prop} {s : Str} (hs : Only good s)
    (h : ∀ c, good c → good' c) : Only good' s := fun c hc => h c (hs c hc)

theorem only_replace {good : Char → Prop} {s : Str} {a b : Char} (hs : Only good s)
    (hb : good b) : Only good (replace s a b) := by
  intro c hc
  obtain ⟨x, hx, rfl⟩ := List.mem_map.1 hc
  split
  · exact hb
  · exact hs x hx

theorem join_cons (c : Char) (x : Str) (xs : List Str) :
    join [c] (x :: xs) = x ++ (xs.map (c :: ·)).flatten := by
  induction xs generalizing x with
  | nil => simp [join, List.intercalate]
  | cons y ys ih =>
    have := ih y
    simp only [join, List.intercalate, List.intersperse_cons_cons, List.flatten_cons] at this ⊢
    rw [this]
    simp

theorem join_cons_cons (sep x y : Str) (ys : List Str) :
    join sep (x :: y :: ys) = x ++ sep ++ join sep (y :: ys) := by
  simp only [join, List.intercalate, List.intersperse_cons_cons, List.flatten_cons,
    List.append_assoc]

theorem join_append_singleton (sep y : Str) :
    ∀ {xs : List Str}, xs ≠ [] → join sep (xs ++ [y]) = join sep xs ++ sep ++ y
  | [x], _ => by simp [join, List.intercalate]
  | x :: x' :: xs, _ => by
    have ih : join sep (x' :: (xs ++ [y])) = join sep (x' :: xs) ++ sep ++ y :=
      join_append_singleton sep y (List.cons_ne_nil x' xs)
    show join sep (x :: x' :: (xs ++ [y])) = _
    rw [join_cons_cons, ih, join_cons_cons sep x x' xs]
    simp only [List.append_assoc]

theorem only_join {good : Char → Prop} {sep : Str} (hsep : Only good sep) :
    ∀ {xs : List Str}, (∀ x ∈ xs, Only good x) → Only good (join sep xs)
  | [], _ => fun _ h => absurd h (List.not_mem_nil _)
  | [x], h => by simpa [join, List.intercalate] using h x (List.mem_singleton_self x)
  | x :: y :: ys, h => by
    rw [join_cons_cons]
    exact only_append.2 ⟨only_append.2 ⟨h x (List.mem_cons_self _ _), hsep⟩,
      only_join hsep fun z hz => h z (List.mem_cons_of_mem _ hz)⟩

theorem toNat_ofNat_sub_32 : ∀ n, 97 ≤ n → n ≤ 122 → (Char.ofNat (n - 32)).toNat = n - 32 := by
  decide

/-- Upper-casing keeps every character outside `A`..`Z` out. -/
theorem toUpper_ne {c d : Char} (hcd : c ≠ d) (hd : d.toNat < 65 ∨ 90 < d.toNat) :
    c.toUpper ≠ d := by
  unfold Char.toUpper
  dsimp only
  split
  · next h =>
    intro e
    have := toNat_ofNat_sub_32 c.toNat h.1 h.2
    rw [e] at this
    omega
  · exact hcd

theorem only_upper {good : Char → Prop} (hup : ∀ c, good c → good c.toUpper) {s : Str}
    (hs : Only good s) : Only good (upper s) := by
  intro c hc
  obtain ⟨d, hd, rfl⟩ := List.mem_map.1 hc
  exact hup d (hs d hd)

/-- Splitting a text that starts with a piece and a separator. -/
theorem split_append_sep {x rest : Str} {c : Char} (h : c ∉ x) :
    split (x ++ c :: rest) c = x :: split rest c :=
  List.splitOnP_first (· == c) x (fun _ hy hyc => h (eq_of_beq hyc ▸ hy)) c (beq_self_eq_true c) rest

/-- Splitting at a separator that joins two texts splits each of them. -/
theorem split_append_cons {c : Char} : ∀ (s t : Str), split (s ++ c :: t) c = split s c ++ split t c
  | [], t => by
    unfold split
    rw [List.nil_append, List.splitOn, List.splitOnP_cons, if_pos (beq_self_eq_true c)]
    rfl
  | x :: s, t => by
    have ih : split (s ++ c :: t) c = split s c ++ split t c := split_append_cons s t
    obtain ⟨y, ys, hs⟩ := List.exists_cons_of_ne_nil (split_ne_nil s c)
    simp only [split, List.splitOn] at ih hs ⊢
    rw [List.cons_append, List.splitOnP_cons, List.splitOnP_cons, ih, hs]
    split <;> rfl

/-- Splitting lines, each ended by the separator, gives the lines back. -/
theorem split_lines {c : Char} {rest : Str} :
    ∀ {ls : List Str}, (∀ l ∈ ls, c ∉ l) →
      split ((ls.map (· ++ [c])).flatten ++ rest) c = ls ++ split rest c
  | [], _ => rfl
  | l :: ls, h => by
    rw [List.map_cons, List.flatten_cons, List.append_assoc, List.append_assoc,
      List.singleton_append, split_append_sep (h l (List.mem_cons_self _ _)),
      split_lines fun l' hl' => h l' (List.mem_cons_of_mem _ hl'), List.cons_append]

theorem mem_split_cons {a c : Char} {s x : Str} (hx : x ∈ split (a :: s) c) :
    (a = c ∧ (x = [] ∨ x ∈ split s c)) ∨
      (a ≠ c ∧ ((∃ y ∈ split s c, x = a :: y) ∨ x ∈ split s c)) := by
  unfold split at *
  rw [List.splitOn, List.splitOnP_cons] at hx
  by_cases hac : a = c
  · rw [if_pos (by simp [hac])] at hx
    exact .inl ⟨hac, List.mem_cons.1 hx⟩
  · rw [if_neg (by simpa using hac)] at hx
    refine .inr ⟨hac, ?_⟩
    obtain ⟨y, ys, hys⟩ := List.exists_cons_of_ne_nil (List.splitOnP_ne_nil (· == c) s)
    rw [hys, List.modifyHead_cons, List.mem_cons] at hx
    rcases hx with rfl | hx
    · exact .inl ⟨y, by rw [List.splitOn, hys]; exact List.mem_cons_self _ _, rfl⟩
    · exact .inr (by rw [List.splitOn, hys]; exact List.mem_cons_of_mem _ hx)

/-- Every piece of a split is made of characters of the text. -/
theorem subset_of_mem_split {c : Char} : ∀ {s x : Str}, x ∈ split s c → x ⊆ s
  | [], x, hx => by
    rw [show split [] c = [[]] from rfl, List.mem_singleton] at hx
    rw [hx]
    exact List.nil_subset _
  | a :: s, x, hx => by
    rcases mem_split_cons hx with ⟨-, rfl | hx⟩ | ⟨-, ⟨y, hy, rfl⟩ | hx⟩
    · exact List.nil_subset _
    · exact (subset_of_mem_split hx).trans (List.subset_cons_self _ _)
    · exact List.cons_subset_cons _ (subset_of_mem_split hy)
    · exact (subset_of_mem_split hx).trans (List.subset_cons_self _ _)

/-- No piece of a split holds the separator. -/
theorem not_mem_of_mem_split {c : Char} : ∀ {s x : Str}, x ∈ split s c → c ∉ x
  | [], x, hx => by
    rw [show split [] c = [[]] from rfl, List.mem_singleton] at hx
    exact hx ▸ List.not_mem_nil c
  | a :: s, x, hx => by
    rcases mem_split_cons hx with ⟨-, rfl | hx⟩ | ⟨hac, ⟨y, hy, rfl⟩ | hx⟩
    · exact List.not_mem_nil c
    · exact not_mem_of_mem_split hx
    · exact List.not_mem_cons_of_ne_of_not_mem (Ne.symm hac) (not_mem_of_mem_split hy)
    · exact not_mem_of_mem_split hx

/-- A character other than the separator lies in one of the pieces. -/
theorem exists_mem_split {c sep : Char} (hc : c ≠ sep) : ∀ {s : Str}, c ∈ s → ∃ x ∈ split s sep, c ∈ x
  | a :: s, h => by
    obtain ⟨y, ys, hs⟩ := List.exists_cons_of_ne_nil (split_ne_nil s sep)
    have hsplit : split (a :: s) sep = if a = sep then [] :: y :: ys else (a :: y) :: ys := by
      simp only [split, List.splitOn] at hs ⊢
      rw [List.splitOnP_cons, hs]
      by_cases ha : a = sep <;> simp [ha]
    rcases List.mem_cons.1 h with rfl | h
    · rw [hsplit, if_neg hc]
      exact ⟨c :: y, List.mem_cons_self _ _, List.mem_cons_self _ _⟩
    · obtain ⟨x, hx, hcx⟩ := exists_mem_split hc h
      rw [hs] at hx
      rw [hsplit]
      split
      · exact ⟨x, List.mem_cons_of_mem _ hx, hcx⟩
      · rcases List.mem_cons.1 hx with rfl | hx
        · exact ⟨a :: x, List.mem_cons_self _ _, List.mem_cons_of_mem _ hcx⟩
        · exact ⟨x, List.mem_cons_of_mem _ hx, hcx⟩

theorem strip_subset (s : Str) : strip s ⊆ s := fun c hc => by
  unfold strip at hc
  rw [List.mem_reverse] at hc
  exact (List.dropWhile_sublist _).subset
    (List.mem_reverse.1 ((List.dropWhile_sublist _).subset hc))

end Str

/-! ## Section 2: Dictionaries -/

/-- A Python `dict` from strings to strings: its items, with distinct keys. -/
structure Dict where
  items : List (Str × Str)
  nodup : (items.map Prod.fst).Nodup
  deriving DecidableEq

namespace Dict

/-- `{}`. -/
def empty : Dict := ⟨[], List.nodup_nil⟩

/-- `k in d`. -/
def contains (d : Dict) (k : Str) : Bool := d.items.any fun kv => kv.1 = k

/-- `d.get(k)`. -/
def get (d : Dict) (k : Str) : Option Str := (d.items.find? fun kv => kv.1 = k).map Prod.snd

/-- `d.keys()`. -/
def keys (d : Dict) : List Str := d.items.map Prod.fst

/-- Replace the value of key `k` in a list of items. -/
def setValue (k v : Str) : List (Str × Str) → List (Str × Str)
  | [] => []
  | kv :: rest => if kv.1 = k then (k, v) :: rest else kv :: setValue k v rest

theorem map_fst_setValue (k v : Str) :
    ∀ l : List (Str × Str), (setValue k v l).map Prod.fst = l.map Prod.fst
  | [] => rfl
  | kv :: rest => by
    unfold setValue
    split <;> simp_all [map_fst_setValue k v rest]

/-- `d[k] = v`: a new key goes last, an existing key keeps its place. -/
def insert (d : Dict) (k v : Str) : Dict :=
  if h : d.contains k then ⟨setValue k v d.items, by rw [map_fst_setValue]; exact d.nodup⟩
  else ⟨d.items ++ [(k, v)], by
    simp only [List.map_append, List.map_cons, List.map_nil]
    refine List.nodup_append.2 ⟨d.nodup, List.nodup_singleton _, ?_⟩
    simp only [contains, List.any_eq_true, decide_eq_true_eq, Bool.not_eq_true,
      Bool.eq_false_iff] at h
    simp only [List.disjoint_singleton, List.mem_map, not_exists, not_and]
    exact fun kv hkv hk => h ⟨kv, hkv, hk⟩⟩

theorem ext_items {d e : Dict} (h : d.items = e.items) : d = e := by
  cases d
  cases e
  cases h
  rfl

theorem filter_setValue {p : Str → Bool} {k v : Str} (hk : p k = false) :
    ∀ l : List (Str × Str), (setValue k v l).filter (fun kv => p kv.1) = l.filter (fun kv => p kv.1)
  | [] => rfl
  | kv :: rest => by
    unfold setValue
    split
    · next h => rw [List.filter_cons_of_neg (by simpa using hk),
        List.filter_cons_of_neg (by simpa [h] using hk)]
    · rw [List.filter_cons, List.filter_cons, filter_setValue hk rest]

/-- Writing a key that `p` rejects leaves the items `p` selects as they were. -/
theorem filter_insert {p : Str → Bool} {d : Dict} {k v : Str} (hk : p k = false) :
    (d.insert k v).items.filter (fun kv => p kv.1) = d.items.filter (fun kv => p kv.1) := by
  unfold insert
  split
  · exact filter_setValue hk d.items
  · simp [List.filter_append, hk]

/-- `d.pop(k)` for a key that is present: the dict without it. -/
def erase (d : Dict) (k : Str) : Dict :=
  ⟨d.items.filter fun kv => kv.1 ≠ k, (List.Sublist.map _ (List.filter_sublist _)).nodup d.nodup⟩

/-- `dict(pairs)`: later pairs override earlier ones. -/
def ofList (l : List (Str × Str)) : Dict := l.foldl (fun d kv => d.insert kv.1 kv.2) empty

/-- The one-item dict `{k: v}`. -/
def single (k v : Str) : Dict := ⟨[(k, v)], List.nodup_singleton _⟩

theorem get_mem {d : Dict} {k v : Str} (h : d.get k = some v) : (k, v) ∈ d.items := by
  obtain ⟨kv, hkv, rfl⟩ := Option.map_eq_some'.1 h
  have hk := List.find?_some hkv
  simp only [decide_eq_true_eq] at hk
  exact hk ▸ List.mem_of_find?_eq_some hkv

theorem contains_eq_isSome (d : Dict) (k : Str) : d.contains k = (d.get k).isSome := by
  rw [get, Option.isSome_map']
  exact Bool.eq_iff_iff.2 (List.any_eq_true.trans List.find?_isSome.symm)

/-- Every value of the dict satisfies `good`. -/
def ValuesOnly (good : Char → Prop) (d : Dict) : Prop := ∀ kv ∈ d.items, Str.Only good kv.2

instance {good : Char → Prop} [DecidablePred good] : DecidablePred (ValuesOnly good) :=
  fun _ => List.decidableBAll _ _

theorem ValuesOnly.get {good : Char → Prop} {d : Dict} {k v : Str} (hd : d.ValuesOnly good)
    (h : d.get k = some v) : Str.Only good v := hd _ (get_mem h)

@[simp] theorem contains_iff {d : Dict} {k : Str} : d.contains k ↔ k ∈ d.keys := by
  simp only [contains, keys, List.any_eq_true, decide_eq_true_eq, List.mem_map]

end Dict

/-! ## Section 3: Exceptions -/

/-- The exceptions that can leave the service's functions. -/
inductive PyExc where
  /-- `RuleParseError(msg)`: a rule set that cannot be translated. -/
  | ruleParseError (msg : Str)
  /-- `RuleApplyError(msg)`: a backend rejected a translated rule set. -/
  | ruleApplyError (msg : Str)
  /-- `ValueError`, from `dict()` over a sequence element of length other than 2. -/
  | valueError
  /-- `IndexError`, from indexing past the end of a list. -/
  | indexError
  /-- `KeyError`, from `d[k]` with `k` absent. -/
  | keyError (k : Str)
  /-- `subprocess.CalledProcessError`, from `check_call` on a non-zero exit. -/
  | calledProcessError
  /-- `OSError`, from a program that could not be started. -/
  | osError
  /-- `SystemExit(code)`, from `sys.exit(code)`. -/
  | systemExit (code : Nat)
  deriving DecidableEq, Repr

instance decEqExcept {ε α : Type} [DecidableEq ε] [DecidableEq α] : DecidableEq (Except ε α)
  | .error a, .error b =>
    if h : a = b then isTrue (h ▸ rfl) else isFalse fun e => h (Except.error.inj e)
  | .ok a, .ok b => if h : a = b then isTrue (h ▸ rfl) else isFalse fun e => h (Except.ok.inj e)
  | .error _, .ok _ => isFalse nofun
  | .ok _, .error _ => isFalse nofun

/-- `xs[i]`. -/
def getIdx {α : Type} (xs : List α) (i : Nat) : Except PyExc α :=
  match xs[i]? with
  | some x => .ok x
  | none => .error .indexError

theorem mem_of_getIdx {α : Type} {xs : List α} {i : Nat} {x : α} (h : getIdx xs i = .ok x) :
    x ∈ xs := by
  unfold getIdx at h
  split at h
  · next y hy =>
    cases h
    exact List.mem_iff_getElem?.2 ⟨_, hy⟩
  · cases h

theorem getIdx_error {α : Type} {xs : List α} {i : Nat} {e : PyExc} (h : getIdx xs i = .error e) :
    e = .indexError := by
  unfold getIdx at h
  split at h <;> cases h
  rfl

/-- `d[k]`. -/
def Dict.getItem (d : Dict) (k : Str) : Except PyExc Str :=
  match d.get k with
  | some v => .ok v
  | none => .error (.keyError k)

theorem Dict.get_of_getItem {d : Dict} {k v : Str} (h : d.getItem k = .ok v) :
    d.get k = some v := by
  unfold getItem at h
  split at h <;> cases h
  assumption

/-! ## Section 4: Computations that raise -/

section Except

variable {ε α β : Type}

theorem bind_eq_ok {x : Except ε α} {g : α → Except ε β} {b : β} :
    x >>= g = .ok b ↔ ∃ a, x = .ok a ∧ g a = .ok b := by
  cases x <;> simp [bind, Except.bind]

theorem map_eq_ok {x : Except ε α} {g : α → β} {b : β} :
    g <$> x = .ok b ↔ ∃ a, x = .ok a ∧ g a = b := by
  cases x <;> simp [Functor.map, Except.map]

theorem map_eq_error {x : Except ε α} {g : α → β} {e : ε} : g <$> x = .error e ↔ x = .error e := by
  cases x <;> simp [Functor.map, Except.map]

theorem pure_eq_ok {a b : α} : (pure a : Except ε α) = .ok b ↔ a = b := by
  simp [pure, Except.pure]

theorem exists_of_forall₂_mem {R : α → β → Prop} :
    ∀ {l : List α} {ys : List β}, List.Forall₂ R l ys → ∀ {y}, y ∈ ys → ∃ x ∈ l, R x y
  | _, _, .nil, _, hy => absurd hy (List.not_mem_nil _)
  | _, _, .cons hxy h, _, hy => by
    rcases List.mem_cons.1 hy with rfl | hy
    · exact ⟨_, List.mem_cons_self _ _, hxy⟩
    · obtain ⟨x, hx, hr⟩ := exists_of_forall₂_mem h hy
      exact ⟨x, List.mem_cons_of_mem _ hx, hr⟩

/-- A loop that raises nothing ran its body successfully on every element. -/
theorem mapM_eq_ok {g : α → Except ε β} :
    ∀ {l : List α} {ys : List β}, l.mapM g = .ok ys ↔ List.Forall₂ (fun x y => g x = .ok y) l ys
  | [], ys => by
    rw [List.mapM_nil, pure_eq_ok]
    cases ys <;> simp only [List.Forall₂.nil, List.forall₂_nil_left_iff, true_iff, eq_comm]
  | x :: l, ys => by
    rw [List.mapM_cons]
    cases ys <;> simp only [bind_eq_ok, pure_eq_ok, mapM_eq_ok, List.forall₂_cons,
      List.forall₂_nil_right_iff, reduceCtorEq, and_false, exists_false, false_and,
      List.cons.injEq, exists_eq_right_right, exists_eq_right, List.Forall₂.nil]

/-- A loop that raises raised in its body on some element. -/
theorem mapM_eq_error {g : α → Except ε β} {e : ε} :
    ∀ {l : List α}, l.mapM g = .error e → ∃ x ∈ l, g x = .error e
  | [], h => by cases h
  | x :: l, h => by
    rw [List.mapM_cons] at h
    cases hx : g x with
    | error e' =>
      rw [hx] at h
      cases h
      exact ⟨x, List.mem_cons_self _ _, hx⟩
    | ok y =>
      cases hl : l.mapM g with
      | error e' =>
        rw [hx, hl] at h
        cases h
        obtain ⟨x', hx', h'⟩ := mapM_eq_error hl
        exact ⟨x', List.mem_cons_of_mem _ hx', h'⟩
      | ok ys =>
        rw [hx, hl] at h
        cases h

theorem mapM_pure_eq_ok {F : α → β} :
    ∀ {l : List α} {ys : List β}, l.mapM (fun b => (pure (F b) : Except ε β)) = .ok ys →
      ys = l.map F
  | [], _, h => ((pure_eq_ok).1 h).symm
  | b :: l, ys, h => by
    rw [List.mapM_cons] at h
    obtain ⟨y, hy, h⟩ := bind_eq_ok.1 h
    obtain ⟨zs, hzs, h⟩ := bind_eq_ok.1 h
    rw [← pure_eq_ok.1 h, ← pure_eq_ok.1 hy, mapM_pure_eq_ok hzs, List.map_cons]

/-- A loop whose body reads one value and raises nothing else either ran no iteration
    or read the value. -/
theorem mapM_read_eq_ok {γ : Type} {x : Except ε α} {F : β → α → γ} {l : List β}
    {ys : List γ} (h : l.mapM (fun b => x >>= fun a => pure (F b a)) = .ok ys) :
    (l = [] ∧ ys = []) ∨ ∃ a, x = .ok a ∧ ys = l.map (F · a) := by
  cases x with
  | error e =>
    cases l with
    | nil => exact .inl ⟨rfl, ((pure_eq_ok).1 h).symm⟩
    | cons b l =>
      rw [List.mapM_cons] at h
      obtain ⟨y, hy, -⟩ := bind_eq_ok.1 h
      cases hy
  | ok a => exact .inr ⟨a, rfl, mapM_pure_eq_ok h⟩

end Except

end QubesFirewall
