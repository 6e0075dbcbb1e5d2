import QubesFirewall.Chains
import QubesFirewall.Packet

/-! # Chain names of address literals

    Both backends name the chain of a source address after the address: `qbs-` and the
    address with its dots, then its colons, made dashes; `IptablesWorker` keeps only the
    last twenty characters of that.  A dash no longer says which separator stood in its
    place, and the cut drops the head of a long address, so a chain name is one address's
    only on part of the literals:

    * on IPv4 literals (four octets, at most fifteen characters), for both backends;
    * on IPv6 literals that all embed an IPv4 literal, or all do not: a dash is then a
      colon, except the last three of a literal with an embedded part, which are its dots;
      for `IptablesWorker` only among literals of at most twenty characters.

    `::ffff:1.2.3.4` and `::ffff:1:2:3:4` get one chain from both backends, and two IPv6
    literals that end in the same twenty characters get one chain from `IptablesWorker`.
    What `WellFormedCalls` asks of the chain names of a run therefore holds of every run over
    IPv4 literals and IPv6 literals without an embedded part (`wellFormedCalls_of_literals`).
-/

namespace QubesFirewall

/-! ## Section 1: Address literals -/

/-- The characters of a hexadecimal digit. -/
def hexChars : Str := "0123456789abcdefABCDEF".toList

/-- A group of an IPv6 literal: one to four hexadecimal digits. -/
def HexGroup (g : Str) : Prop := g ≠ [] ∧ g.length ≤ 4 ∧ Str.Only (· ∈ hexChars) g

instance decHexGroup : DecidablePred HexGroup := fun _ =>
  inferInstanceAs (Decidable (_ ∧ _ ∧ _))

/-- An octet of an IPv4 literal: one to three decimal digits naming at most 255. -/
def Octet (s : Str) : Prop := Str.isdigit s ∧ s.length ≤ 3 ∧ decimal s ≤ 255

instance decOctet : DecidablePred Octet := fun _ => inferInstanceAs (Decidable (_ ∧ _ ∧ _))

/-- An IPv4 literal: four octets separated by dots. -/
def IPv4Literal (s : Str) : Prop := (Str.split s '.').length = 4 ∧ ∀ x ∈ Str.split s '.', Octet x

instance decIPv4Literal : DecidablePred IPv4Literal := fun _ =>
  inferInstanceAs (Decidable (_ ∧ ∀ x ∈ _, _))

/-- How an IPv6 literal is written: the groups before `::` (all of them when there is no
    `::`), the groups after it when there is one, and the IPv4 literal that may stand for
    the last two groups. -/
structure V6Form where
  front : List Str
  back : Option (List Str)
  quad : Option Str
  deriving DecidableEq

namespace V6Form

/-- The text of a form: its groups and IPv4 part joined by colons, `::` between the groups
    before it and those after it. -/
def text (f : V6Form) : Str :=
  match f.back with
  | none => Str.join [':'] (f.front ++ f.quad.toList)
  | some b => Str.join [':'] f.front ++ ':' :: ':' :: Str.join [':'] (b ++ f.quad.toList)

/-- The number of groups a form writes out, its IPv4 part counting as two. -/
def written (f : V6Form) : Nat :=
  f.front.length + (f.back.getD []).length + 2 * f.quad.toList.length

/-- A form of an address: hexadecimal groups, an IPv4 literal for the IPv4 part, and eight
    groups in all, written out when there is no `::`, at most seven written out when `::`
    stands for the others. -/
def Valid (f : V6Form) : Prop :=
  (∀ g ∈ f.front ++ f.back.getD [], HexGroup g) ∧ (∀ q ∈ f.quad.toList, IPv4Literal q) ∧
    match f.back with
    | none => f.written = 8
    | some _ => f.written ≤ 7

instance decValid : DecidablePred Valid := fun f => by
  unfold Valid
  split <;> exact inferInstance

end V6Form

/-- An IPv6 literal: the text of a form of an address. -/
def IPv6Literal (s : Str) : Prop := ∃ f : V6Form, f.Valid ∧ f.text = s

/-! ## Section 2: What a literal is made of -/

/-- A character of an IPv6 literal without an IPv4 part. -/
def V6Char (c : Char) : Prop := c ∈ hexChars ∨ c = ':'

instance decV6Char : DecidablePred V6Char := fun _ => inferInstanceAs (Decidable (_ ∨ _))

theorem v6Char_sep {s : Str} (hs : Str.Only V6Char s) : '-' ∉ s ∧ '.' ∉ s :=
  ⟨fun h => absurd (hs _ h) (by decide), fun h => absurd (hs _ h) (by decide)⟩

theorem HexGroup.only {g : Str} (h : HexGroup g) : Str.Only V6Char g :=
  h.2.2.imp fun _ => Or.inl

theorem only_colon : Str.Only V6Char [':'] := by decide

theorem only_colons {s : Str} (h : Str.Only V6Char s) : Str.Only V6Char (':' :: ':' :: s) :=
  Str.only_append.2 (⟨by decide, h⟩ : Str.Only V6Char [':', ':'] ∧ _)

theorem IPv4Literal.isDigit {s : Str} (h : IPv4Literal s) {c : Char} (hc : c ∈ s)
    (hdot : c ≠ '.') : c.isDigit := by
  obtain ⟨x, hx, hcx⟩ := Str.exists_mem_split hdot hc
  have hdig := (h.2 x hx).1
  simp only [Str.isdigit, Bool.and_eq_true] at hdig
  exact List.all_eq_true.1 hdig.2 c hcx

theorem IPv4Literal.sep {s : Str} (h : IPv4Literal s) : '-' ∉ s ∧ ':' ∉ s :=
  ⟨fun hc => absurd (h.isDigit hc (by decide)) (by decide),
    fun hc => absurd (h.isDigit hc (by decide)) (by decide)⟩

theorem IPv4Literal.dot_mem {s : Str} (h : IPv4Literal s) : '.' ∈ s := by
  by_contra hdot
  have := h.1
  rw [Str.split_of_not_mem hdot] at this
  simp at this

theorem IPv4Literal.length_le {s : Str} (h : IPv4Literal s) : s.length ≤ 15 := by
  obtain ⟨hlen, hoct⟩ := h
  have hs : Str.join ['.'] (Str.split s '.') = s := List.intercalate_splitOn s '.'
  match hsp : Str.split s '.', hlen with
  | [a, b, c, d], _ =>
    have hl : ∀ x ∈ [a, b, c, d], x.length ≤ 3 := fun x hx => (hoct x (hsp ▸ hx)).2.1
    simp only [List.mem_cons, List.mem_singleton, forall_eq_or_imp, forall_eq,
      List.not_mem_nil, false_implies, implies_true, and_true] at hl
    rw [← hs, hsp]
    simp only [Str.join, List.intercalate, List.intersperse_cons_cons, List.intersperse_single,
      List.flatten_cons, List.flatten_nil, List.length_append, List.length_singleton,
      List.length_nil]
    omega

/-- An IPv6 literal is hexadecimal digits and colons, or such a text, a colon and an
    embedded IPv4 literal. -/
theorem IPv6Literal.shape {s : Str} (h : IPv6Literal s) :
    Str.Only V6Char s ∨ ∃ p q, s = p ++ ':' :: q ∧ Str.Only V6Char p ∧ IPv4Literal q := by
  obtain ⟨⟨front, back, quad⟩, ⟨hgroups, hquad, hcount⟩, rfl⟩ := h
  have hg : ∀ g ∈ front ++ back.getD [], Str.Only V6Char g := fun g hg => (hgroups g hg).only
  have hjoin : ∀ xs, (∀ g ∈ xs, g ∈ front ++ back.getD []) → Str.Only V6Char (Str.join [':'] xs) :=
    fun xs hxs => Str.only_join only_colon fun g hgx => hg g (hxs g hgx)
  have hfront := hjoin front fun g hgx => List.mem_append_left _ hgx
  cases quad with
  | none =>
    left
    cases back with
    | none => simpa [V6Form.text] using hfront
    | some b =>
      simp only [V6Form.text, Option.toList_none, List.append_nil]
      exact Str.only_append.2 ⟨hfront,
        only_colons (hjoin b fun g hgx => List.mem_append_right _ hgx)⟩
  | some q =>
    right
    have hq : IPv4Literal q := hquad q (List.mem_singleton_self q)
    cases back with
    | none =>
      have hne : front ≠ [] := by
        rintro rfl
        simp [V6Form.written] at hcount
      refine ⟨Str.join [':'] front, q, ?_, hfront, hq⟩
      simp [V6Form.text, Str.join_append_singleton _ _ hne]
    | some b =>
      by_cases hb : b = []
      · subst hb
        refine ⟨Str.join [':'] front ++ [':'], q, ?_, Str.only_append.2 ⟨hfront, only_colon⟩, hq⟩
        simp [V6Form.text, Str.join, List.intercalate]
      · refine ⟨Str.join [':'] front ++ ':' :: ':' :: Str.join [':'] b, q, ?_,
          Str.only_append.2 ⟨hfront, only_colons (hjoin b fun g hgx => List.mem_append_right _ hgx)⟩,
          hq⟩
        simp [V6Form.text, Str.join_append_singleton _ _ hb]

theorem IPv6Literal.colon_mem {s : Str} (h : IPv6Literal s) : ':' ∈ s := by
  obtain ⟨⟨front, back, quad⟩, ⟨-, -, hcount⟩, rfl⟩ := h
  cases back with
  | some _ => exact List.mem_append_right _ (List.mem_cons_self _ _)
  | none =>
    have hlen : 2 ≤ (front ++ quad.toList).length := by
      simp only [V6Form.written, Option.getD_none, List.length_nil] at hcount
      rw [List.length_append]
      omega
    simp only [V6Form.text]
    match front ++ quad.toList, hlen with
    | x :: y :: zs, _ =>
      rw [Str.join_cons_cons]
      exact List.mem_append_left _ (List.mem_append_right _ (List.mem_singleton_self _))

/-! ## Section 3: Reading the dashes back -/

/-- The address as both chain names write it: its dots, then its colons, made dashes. -/
def dashed (addr : Str) : Str := Str.replace (Str.replace addr '.' '-') ':' '-'

theorem Nftables.chain_for_addr_eq_dashed (addr : Str) :
    Nftables.chain_for_addr addr = "qbs-".toList ++ dashed addr := rfl

theorem Iptables.chain_for_addr_eq_dashed (addr : Str) :
    Iptables.chain_for_addr addr = "qbs-".toList ++ Str.lastN (dashed addr) 20 := rfl

@[simp] theorem length_dashed (addr : Str) : (dashed addr).length = addr.length := by
  simp only [dashed, Str.length_replace]

theorem dashed_append_colon (p q : Str) : dashed (p ++ ':' :: q) = dashed p ++ '-' :: dashed q := by
  simp [dashed, Str.replace]

/-- In a text of neither dashes nor colons, the dashes read back as dots. -/
theorem undash_dots {s : Str} (h : '-' ∉ s ∧ ':' ∉ s) : Str.replace (dashed s) '-' '.' = s := by
  rw [dashed, Str.replace_of_not_mem (Str.not_mem_replace_of_not_mem h.2 (by decide)),
    Str.replace_replace h.1]

/-- In a text of neither dashes nor dots, the dashes read back as colons. -/
theorem undash_colons {s : Str} (h : '-' ∉ s ∧ '.' ∉ s) : Str.replace (dashed s) '-' ':' = s := by
  rw [dashed, Str.replace_of_not_mem h.2, Str.replace_replace h.1]

theorem dashed_inj_dots {s t : Str} (hs : '-' ∉ s ∧ ':' ∉ s) (ht : '-' ∉ t ∧ ':' ∉ t)
    (h : dashed s = dashed t) : s = t := by
  rw [← undash_dots hs, h, undash_dots ht]

theorem dashed_inj_colons {s t : Str} (hs : '-' ∉ s ∧ '.' ∉ s) (ht : '-' ∉ t ∧ '.' ∉ t)
    (h : dashed s = dashed t) : s = t := by
  rw [← undash_colons hs, h, undash_colons ht]

/-- The dashes of an IPv4 literal's chain-name text are its dots. -/
theorem IPv4Literal.split_dashed {q : Str} (h : IPv4Literal q) :
    Str.split (dashed q) '-' = Str.split q '.' := by
  rw [dashed, Str.replace_of_not_mem (Str.not_mem_replace_of_not_mem h.sep.2 (by decide)),
    Str.split_replace h.sep.1]

/-- Texts of colons and hexadecimal digits that end in an IPv4 literal are told apart by
    their dashed texts: the last four pieces between dashes are the octets. -/
theorem dashed_inj_quad {p p' q q' : Str} (hp : '-' ∉ p ∧ '.' ∉ p) (hp' : '-' ∉ p' ∧ '.' ∉ p')
    (hq : IPv4Literal q) (hq' : IPv4Literal q')
    (h : dashed (p ++ ':' :: q) = dashed (p' ++ ':' :: q')) : p = p' ∧ q = q' := by
  have hsplit := congrArg (Str.split · '-') h
  simp only [dashed_append_colon, Str.split_append_cons, hq.split_dashed, hq'.split_dashed]
    at hsplit
  obtain ⟨hp₁, hq₁⟩ := List.append_inj' hsplit (by rw [hq.1, hq'.1])
  refine ⟨dashed_inj_colons hp hp' ?_, ?_⟩
  · rw [← Str.join_split (dashed p) '-', hp₁, Str.join_split]
  · rw [← Str.join_split q '.', hq₁, Str.join_split]

/-! ## Section 4: Which literals keep a chain of their own -/

theorem IPv4Literal.dashed_inj {s t : Str} (hs : IPv4Literal s) (ht : IPv4Literal t)
    (h : dashed s = dashed t) : s = t :=
  dashed_inj_dots hs.sep ht.sep h

/-- Two IPv6 literals that both embed an IPv4 literal, or both do not, are told apart by
    their dashed texts. -/
theorem IPv6Literal.dashed_inj {s t : Str} (hs : IPv6Literal s) (ht : IPv6Literal t)
    (hdot : '.' ∈ s ↔ '.' ∈ t) (h : dashed s = dashed t) : s = t := by
  rcases hs.shape with hs | ⟨p, q, rfl, hp, hq⟩ <;> rcases ht.shape with ht | ⟨p', q', rfl, hp', hq'⟩
  · exact dashed_inj_colons (v6Char_sep hs) (v6Char_sep ht) h
  · exact absurd (hdot.2 (List.mem_append_right _ (List.mem_cons_of_mem _ hq'.dot_mem)))
      (v6Char_sep hs).2
  · exact absurd (hdot.1 (List.mem_append_right _ (List.mem_cons_of_mem _ hq.dot_mem)))
      (v6Char_sep ht).2
  · obtain ⟨rfl, rfl⟩ := dashed_inj_quad (v6Char_sep hp) (v6Char_sep hp') hq hq' h
    rfl

/-- Two addresses with one chain have one dashed text, when `IptablesWorker`'s cut keeps
    all of both. -/
theorem Backend.dashed_eq {b : Backend} {s t : Str}
    (hlen : b = .iptables → s.length ≤ 20 ∧ t.length ≤ 20)
    (h : b.chain_for_addr s = b.chain_for_addr t) : dashed s = dashed t := by
  cases b with
  | nftables => exact List.append_cancel_left h
  | iptables =>
    obtain ⟨hs, ht⟩ := hlen rfl
    rw [Backend.chain_for_addr, Iptables.chain_for_addr_eq_dashed,
      Iptables.chain_for_addr_eq_dashed, Str.lastN_of_length_le (by simpa using hs),
      Str.lastN_of_length_le (by simpa using ht)] at h
    exact List.append_cancel_left h

/-- Chain names keep the address literals of one family apart: any two IPv4 literals, and
    two IPv6 literals that both embed an IPv4 literal or both do not, for `IptablesWorker`
    of at most twenty characters each. -/
theorem chain_for_addr_injective_on_literals (b : Backend) :
    (∀ s t, IPv4Literal s → IPv4Literal t → s ≠ t → b.chain_for_addr s ≠ b.chain_for_addr t) ∧
      ∀ s t, IPv6Literal s → IPv6Literal t → ('.' ∈ s ↔ '.' ∈ t) →
        (b = .iptables → s.length ≤ 20 ∧ t.length ≤ 20) → s ≠ t →
        b.chain_for_addr s ≠ b.chain_for_addr t :=
  ⟨fun _ _ hs ht hne h => hne (hs.dashed_inj ht (Backend.dashed_eq
      (fun _ => ⟨hs.length_le.trans (by decide), ht.length_le.trans (by decide)⟩) h)),
    fun _ _ hs ht hdot hlen hne h => hne (hs.dashed_inj ht hdot (Backend.dashed_eq hlen h))⟩

/-- Two client addresses of each family. -/
def clientFour : Str := "10.137.0.5".toList

def clientFourNext : Str := "10.137.0.6".toList

def clientSix : Str := "fd00::a89:5".toList

def clientSixNext : Str := "fd00::a89:6".toList

/-- `IptablesWorker`, the backend with the cut, names both pairs of client addresses apart. -/
theorem client_addresses_distinct_chains :
    IPv4Literal clientFour ∧ IPv4Literal clientFourNext ∧ clientFour ≠ clientFourNext ∧
      Backend.iptables.chain_for_addr clientFour ≠ Backend.iptables.chain_for_addr clientFourNext ∧
    IPv6Literal clientSix ∧ IPv6Literal clientSixNext ∧ ('.' ∈ clientSix ↔ '.' ∈ clientSixNext) ∧
      clientSix.length ≤ 20 ∧ clientSixNext.length ≤ 20 ∧ clientSix ≠ clientSixNext ∧
      Backend.iptables.chain_for_addr clientSix ≠ Backend.iptables.chain_for_addr clientSixNext :=
  have h4 : IPv4Literal clientFour := by decide
  have h4' : IPv4Literal clientFourNext := by decide
  have h6 : IPv6Literal clientSix :=
    ⟨⟨["fd00".toList], some ["a89".toList, "5".toList], none⟩, by decide, by decide⟩
  have h6' : IPv6Literal clientSixNext :=
    ⟨⟨["fd00".toList], some ["a89".toList, "6".toList], none⟩, by decide, by decide⟩
  ⟨h4, h4', by decide,
    (chain_for_addr_injective_on_literals .iptables).1 _ _ h4 h4' (by decide),
    h6, h6', by decide, by decide, by decide, by decide,
    (chain_for_addr_injective_on_literals .iptables).2 _ _ h6 h6' (by decide)
      (fun _ => ⟨by decide, by decide⟩) (by decide)⟩

/-- `::ffff:1.2.3.4`, an IPv4-mapped address written with its IPv4 literal. -/
def mappedQuad : Str := "::ffff:1.2.3.4".toList

/-- `::ffff:1:2:3:4`, written in groups only. -/
def mappedGroups : Str := "::ffff:1:2:3:4".toList

/-- Two addresses of different networks that end in the same twenty characters. -/
def docSuffix : Str := "2001:db8::5555:6666:7777:8888".toList

def ulaSuffix : Str := "fd00::5555:6666:7777:8888".toList

/-- `::ffff:1.2.3.4` and `::ffff:1:2:3:4`, two different addresses, get one chain from both
    backends, and the two addresses that end alike get one chain from `IptablesWorker`. -/
theorem literals_sharing_chains :
    IPv6Literal mappedQuad ∧ IPv6Literal mappedGroups ∧ mappedQuad ≠ mappedGroups ∧
      (∀ b : Backend, b.chain_for_addr mappedQuad = b.chain_for_addr mappedGroups) ∧
    IPv6Literal docSuffix ∧ IPv6Literal ulaSuffix ∧ docSuffix ≠ ulaSuffix ∧
      '.' ∉ docSuffix ∧ '.' ∉ ulaSuffix ∧
      Backend.iptables.chain_for_addr docSuffix = Backend.iptables.chain_for_addr ulaSuffix :=
  ⟨⟨⟨[], some ["ffff".toList], some "1.2.3.4".toList⟩, by decide, by decide⟩,
    ⟨⟨[], some (Str.split "ffff:1:2:3:4".toList ':'), none⟩, by decide, by decide⟩, by decide,
    fun b => by cases b <;> decide,
    ⟨⟨Str.split "2001:db8".toList ':', some (Str.split "5555:6666:7777:8888".toList ':'), none⟩,
      by decide, by decide⟩,
    ⟨⟨["fd00".toList], some (Str.split "5555:6666:7777:8888".toList ':'), none⟩,
      by decide, by decide⟩,
    by decide, by decide, by decide, by decide⟩

/-! ## Section 5: Runs over address literals

    The chain-name condition of `WellFormedCalls` is a property of the addresses alone: it
    holds of every run whose addresses are IPv4 literals, or IPv6 literals without an
    embedded IPv4 part (for `IptablesWorker`, of at most twenty characters), and such
    addresses are one word to both tools.
-/

/-- An address the chain-name results keep apart from every other: an IPv4 literal, or an
    IPv6 literal without an embedded IPv4 part, of at most twenty characters for
    `IptablesWorker`. -/
def PlainLiteral (b : Backend) (a : Str) : Prop :=
  IPv4Literal a ∨ IPv6Literal a ∧ '.' ∉ a ∧ (b = .iptables → a.length ≤ 20)

/-- A character of an address literal. -/
def LiteralChar (c : Char) : Prop := c.isDigit ∨ V6Char c ∨ c = '.'

instance decLiteralChar : DecidablePred LiteralChar := fun _ =>
  inferInstanceAs (Decidable (_ ∨ _ ∨ _))

theorem oneWord_of_literalChars {s : Str} (h : Str.Only LiteralChar s) : OneWord s := by
  have hsep : ∀ d ∈ " \t\n\r;#\"\x7b\x7d".toList, ¬ LiteralChar d := by decide
  exact fun c hc hbad => hsep c hbad (h c hc)

theorem IPv4Literal.literalChars {s : Str} (h : IPv4Literal s) : Str.Only LiteralChar s :=
  fun c hc => if hdot : c = '.' then .inr (.inr hdot) else .inl (h.isDigit hc hdot)

theorem IPv6Literal.literalChars {s : Str} (h : IPv6Literal s) : Str.Only LiteralChar s := by
  rcases h.shape with hs | ⟨p, q, rfl, hp, hq⟩
  · exact hs.imp fun _ hc => .inr (.inl hc)
  · refine Str.only_append.2 ⟨hp.imp fun _ hc => .inr (.inl hc), fun c hc => ?_⟩
    rcases List.mem_cons.1 hc with rfl | hc
    · exact .inr (.inl (.inr rfl))
    · exact hq.literalChars c hc

theorem PlainLiteral.addrWord {b : Backend} {a : Str} (h : PlainLiteral b a) : AddrWord a := by
  rcases h with h4 | ⟨h6, -, -⟩
  · exact ⟨List.ne_nil_of_mem h4.dot_mem, oneWord_of_literalChars h4.literalChars⟩
  · exact ⟨List.ne_nil_of_mem h6.colon_mem, oneWord_of_literalChars h6.literalChars⟩

theorem familyOf_of_mem {a : Str} (h : ':' ∈ a) : familyOf a = .six := by
  rw [familyOf, is_ip6, if_pos (decide_eq_true (List.count_pos_iff.2 h))]

theorem familyOf_of_not_mem {a : Str} (h : ':' ∉ a) : familyOf a = .four := by
  rw [familyOf, is_ip6, if_neg fun hc => h (List.count_pos_iff.1 (of_decide_eq_true hc))]

/-- No two plain literals of one family share a chain. -/
theorem chains_distinct_of_literals {b : Backend} {cs : List (Str × QubesDB)}
    (hlit : ∀ p ∈ cs, PlainLiteral b p.1) :
    ∀ p ∈ cs, ∀ q ∈ cs, familyOf p.1 = familyOf q.1 →
      b.chain_for_addr p.1 = b.chain_for_addr q.1 → p.1 = q.1 := by
  intro p hp q hq hfam h
  rcases hlit p hp with h4 | ⟨h6, hdot, hlen⟩ <;> rcases hlit q hq with h4' | ⟨h6', hdot', hlen'⟩
  · exact h4.dashed_inj h4' (Backend.dashed_eq
      (fun _ => ⟨h4.length_le.trans (by decide), h4'.length_le.trans (by decide)⟩) h)
  · rw [familyOf_of_not_mem h4.sep.2, familyOf_of_mem h6'.colon_mem] at hfam
    cases hfam
  · rw [familyOf_of_mem h6.colon_mem, familyOf_of_not_mem h4'.sep.2] at hfam
    cases hfam
  · exact h6.dashed_inj h6' (iff_of_false hdot hdot')
      (Backend.dashed_eq (fun hb => ⟨hlen hb, hlen' hb⟩) h)

/-- The calls of a run over plain literals are well formed once the values stored for them
    are made of the backend's value characters and no two of the literals name one
    address. -/
theorem wellFormedCalls_of_literals {b : Backend} {cs : List (Str × QubesDB)}
    (hlit : ∀ p ∈ cs, PlainLiteral b p.1)
    (hval : ∀ p ∈ cs, (p.2.multiread (targetDir p.1)).ValuesOnly b.ValueChar)
    (hhost : ∀ p ∈ cs, (hostOf p.1).isSome ∧ ∀ q ∈ cs, hostOf q.1 = hostOf p.1 → q.1 = p.1) :
    WellFormedCalls b cs :=
  ⟨fun p hp => ⟨(hlit p hp).addrWord, hval p hp⟩, chains_distinct_of_literals hlit, hhost⟩

end QubesFirewall
