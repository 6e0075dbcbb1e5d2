import QubesFirewall.Python

/-! # Nameservers from `/etc/resolv.conf`

    `FirewallWorker.dns_addresses` reads `/etc/resolv.conf` line by line, strips each line
    and, for a line starting with `nameserver`, yields its second space-separated field:
    for IPv4 when the whole line holds exactly three dots, for IPv6 when it holds a colon.
    The classification counts characters of the line, so a line naming an IPv4-mapped IPv6
    address is yielded for both families; the field is taken by `split(' ')`, so a tab
    after `nameserver` raises `IndexError`.  Section 3 gives the exact output on every file
    whose nameserver lines separate the address by one space.
-/

namespace QubesFirewall

/-- An address family: the code's integer `4` or `6`. -/
inductive Family where
  | four
  | six
  deriving DecidableEq, Repr

/-! ## Section 1: `dns_addresses` -/

/-- `(family or 4) == 4`. -/
def Family.orFour : Option Family → Bool
  | some .six => false
  | _ => true

/-- `(family or 6) == 6`. -/
def Family.orSix : Option Family → Bool
  | some .four => false
  | _ => true

/-- The keyword of a nameserver line, `nameserver`. -/
def nameserverKw : Str := "nameserver".toList

/-- The lines of a file, as `readlines` gives them once stripped: the newline that ends a
    line is whitespace, so splitting at newlines yields the same stripped lines. -/
def readLines (content : Str) : List Str := (Str.split content '\n').map Str.strip

/-- The body of the loop of `dns_addresses` for one stripped line. -/
def nameserverOf (family : Option Family) (line : Str) : Except PyExc (Option Str) :=
  if Str.startswith line nameserverKw then
    if line.count '.' = 3 ∧ Family.orFour family then some <$> getIdx (Str.split line ' ') 1
    else if line.count ':' > 0 ∧ Family.orSix family then some <$> getIdx (Str.split line ' ') 1
    else .ok none
  else .ok none

/-- `FirewallWorker.dns_addresses(family)` over the contents of `/etc/resolv.conf`,
    as the list its generator yields. -/
def dns_addresses (resolvConf : Str) (family : Option Family) : Except PyExc (List Str) :=
  List.reduceOption <$> (readLines resolvConf).mapM (nameserverOf family)

theorem mem_split_of_nameserverOf {family : Option Family} {line a : Str}
    (h : nameserverOf family line = .ok (some a)) : a ∈ Str.split line ' ' := by
  unfold nameserverOf at h
  split_ifs at h <;> first
    | cases h
    | exact mem_of_getIdx ((map_eq_ok.1 h).elim fun b hb => (Option.some.inj hb.2) ▸ hb.1)

/-- Every yielded address is a space-separated field of a line of the file. -/
theorem mem_dns_addresses {content a : Str} {family : Option Family} {N : List Str}
    (h : dns_addresses content family = .ok N) (ha : a ∈ N) :
    ∃ line ∈ readLines content, a ∈ Str.split line ' ' := by
  obtain ⟨xs, hxs, rfl⟩ := map_eq_ok.1 h
  obtain ⟨line, hl, hline⟩ :=
    exists_of_forall₂_mem (mapM_eq_ok.1 hxs) (List.reduceOption_mem_iff.1 ha)
  exact ⟨line, hl, mem_split_of_nameserverOf hline⟩

/-- A nameserver address holds no space and no line break. -/
theorem dns_addresses_no_space {content a : Str} {family : Option Family} {N : List Str}
    (h : dns_addresses content family = .ok N) (ha : a ∈ N) :
    Str.Only (fun c => c ≠ ' ' ∧ c ≠ '\n') a := by
  obtain ⟨line, hl, ha⟩ := mem_dns_addresses h ha
  obtain ⟨piece, hp, rfl⟩ := List.mem_map.1 hl
  intro c hc
  exact ⟨fun e => Str.not_mem_of_mem_split ha (e ▸ hc),
    fun e => Str.not_mem_of_mem_split hp
      (Str.strip_subset _ (Str.subset_of_mem_split ha (e ▸ hc)))⟩

/-- `dns_addresses` raises nothing but `IndexError`, from a nameserver line without a
    second field. -/
theorem dns_addresses_error {content : Str} {family : Option Family} {e : PyExc}
    (h : dns_addresses content family = .error e) : e = .indexError := by
  cases hm : (readLines content).mapM (nameserverOf family) with
  | ok _ =>
    rw [dns_addresses, hm] at h
    cases h
  | error e' =>
    rw [dns_addresses, hm] at h
    cases h
    obtain ⟨line, -, hl⟩ := mapM_eq_error hm
    unfold nameserverOf at hl
    split_ifs at hl <;> first
      | cases hl
      | exact getIdx_error (map_eq_error.1 hl)

/-! ## Section 2: A mapped address is yielded for both families -/

/-- A `resolv.conf` naming an IPv4-mapped IPv6 nameserver. -/
def mappedResolvConf : Str := "nameserver ::ffff:1.2.3.4\n".toList

/-- The mapped address, not a dotted quad, is yielded for IPv4 and again for IPv6. -/
theorem dns_addresses_mapped_both :
    dns_addresses mappedResolvConf (some .four) = .ok ["::ffff:1.2.3.4".toList] ∧
    dns_addresses mappedResolvConf (some .six) = .ok ["::ffff:1.2.3.4".toList] := by
  decide

/-! ## Section 3: The output on files with one space after `nameserver` -/

/-- The line test of `dns_addresses` for a family: three dots, or a colon. -/
def familyTest : Family → Str → Bool
  | .four, line => line.count '.' = 3
  | .six, line => line.count ':' > 0

/-- The address field of a stripped `nameserver` line that passes the family test. -/
def addressField (f : Family) (line : Str) : Option Str :=
  if Str.startswith line nameserverKw ∧ familyTest f line then (Str.split line ' ')[1]?
  else none

/-- A `nameserver` line whose second space-separated field is non-empty. -/
def HasAddress (line : Str) : Prop :=
  Str.startswith line nameserverKw → (Str.split line ' ').getD 1 [] ≠ []

instance : DecidablePred HasAddress := fun _ => inferInstanceAs (Decidable (_ → _))

/-- Every `nameserver` line has a non-empty second space-separated field. -/
def OneSpaceNameservers (resolvConf : Str) : Prop := ∀ line ∈ readLines resolvConf, HasAddress line

instance : DecidablePred OneSpaceNameservers := fun _ => List.decidableBAll _ _

theorem getElem?_one_of_hasAddress {line : Str} (h : HasAddress line)
    (hs : Str.startswith line nameserverKw) :
    ∃ a, (Str.split line ' ')[1]? = some a ∧ a ≠ [] := by
  have h := h hs
  rw [List.getD_eq_getElem?_getD] at h
  cases hx : (Str.split line ' ')[1]? with
  | none => rw [hx] at h; exact absurd rfl h
  | some a => exact ⟨a, rfl, by rwa [hx] at h⟩

theorem map_some_getIdx {xs : List Str} {a : Str} (h : xs[1]? = some a) :
    some <$> getIdx xs 1 = .ok (some a) := by
  simp only [getIdx, h]
  rfl

theorem nameserverOf_eq {f : Family} {line : Str} (h : HasAddress line) :
    nameserverOf (some f) line = .ok (addressField f line) := by
  unfold nameserverOf addressField
  by_cases hs : Str.startswith line nameserverKw
  · obtain ⟨a, ha, -⟩ := getElem?_one_of_hasAddress h hs
    rw [if_pos hs, ha]
    cases f
    · by_cases hd : line.count '.' = 3 <;>
        simp [Family.orFour, Family.orSix, familyTest, hd, hs, map_some_getIdx ha]
    · by_cases hc : line.count ':' > 0 <;>
        simp [Family.orFour, Family.orSix, familyTest, hc, hs, map_some_getIdx ha]
  · rw [if_neg hs, if_neg fun h' => hs h'.1]

theorem mapM_nameserverOf {f : Family} :
    ∀ {lines : List Str}, (∀ line ∈ lines, HasAddress line) →
    lines.mapM (nameserverOf (some f)) = .ok (lines.map (addressField f))
  | [], _ => rfl
  | line :: rest, h => by
    rw [List.mapM_cons, nameserverOf_eq (h line (List.mem_cons_self _ _)),
      mapM_nameserverOf fun l hl => h l (List.mem_cons_of_mem _ hl)]
    rfl

theorem addressField_ne_nil {f : Family} {line a : Str} (h : HasAddress line)
    (ha : addressField f line = some a) : a ≠ [] := by
  unfold addressField at ha
  split_ifs at ha with hl
  have h := h hl.1
  rw [List.getD_eq_getElem?_getD, ha] at h
  exact h

/-- On a file whose `nameserver` lines have one space before a non-empty address,
    `dns_addresses` raises nothing and yields, in file order, the address field of
    every `nameserver` line with three dots (IPv4) or with a colon (IPv6); none of them
    is empty. -/
theorem dns_addresses_one_space (resolvConf : Str) (f : Family)
    (h : OneSpaceNameservers resolvConf) :
    dns_addresses resolvConf (some f) =
        .ok ((readLines resolvConf).filterMap (addressField f)) ∧
      ∀ a ∈ (readLines resolvConf).filterMap (addressField f), a ≠ [] := by
  refine ⟨?_, fun a ha => ?_⟩
  · rw [dns_addresses, mapM_nameserverOf h]
    simp [List.reduceOption, List.filterMap_map, Function.comp_def]
  · obtain ⟨line, hl, ha⟩ := List.mem_filterMap.1 ha
    exact addressField_ne_nil (h line hl) ha

/-- A file with one IPv4 and one IPv6 nameserver. -/
theorem dns_addresses_one_space_two :
    OneSpaceNameservers "nameserver 10.139.1.1\nnameserver fd09::1\n".toList ∧
      dns_addresses "nameserver 10.139.1.1\nnameserver fd09::1\n".toList (some .six) =
        .ok ["fd09::1".toList] :=
  ⟨by decide, by
    rw [(dns_addresses_one_space _ .six (by decide)).1]
    decide⟩

end QubesFirewall
