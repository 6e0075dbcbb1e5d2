import QubesFirewall.Nftables
import QubesFirewall.Packet

/-! # The nftables backend keeps the first-match meaning

    `nft` reads the chain block of the program as a list of statements, one a line, each a
    sequence of words: matches, then the verdict.  A match is three words (`ip protocol p`,
    `ip6 nexthdr p`, `p dport n` with `n` a port or a range `lo-hi`, `icmp type t`), or a
    destination `ip daddr a` whose value is a prefix or a set `{ a, b }` of prefixes.  A
    packet gets the verdict of the first statement whose matches all hold of it.  The
    reading here splits at spaces and compares protocols by name, as `nft` does for the
    statements the law is about: words without a blank, protocols named `tcp`, `udp` or
    `icmp` (`nft` also reads numbers), and ports written in decimal.

    The law proved here: for a rule list the translation accepts, the first statement
    holding of a packet ends with the action of the first rule matching it, and none holds
    when no rule matches.  Besides that shape it needs at most one destination option and
    one condition on `specialtarget=dns` rules: the code keeps their ports only when they
    collapse to `53`, so a range such as `1-1024` around port 53 drops the rule.
-/

namespace QubesFirewall.Nftables

/-! ## Section 1: What `nft` reads from a program -/

/-- The words of a text as `nft` reads them: the pieces between spaces, empty ones
    dropped. -/
def words (s : Str) : List Str := (Str.split s ' ').filter (· ≠ [])

/-- An element of a set as written, `a,` or `a`, without its comma. -/
def setElement (w : Str) : Str := if w.getLast? = some ',' then w.dropLast else w

section Reading

variable (inPrefix : Str → Str → Bool) {family : Family} (pkt : Packet family)

/-- Whether a match of three words holds of the packet: `ip protocol p`, `ip6 nexthdr p`,
    `p dport n`, `icmp type t`. -/
def matchHolds (a b c : Str) : Bool :=
  if b = key "protocol" ∨ b = key "nexthdr" then pkt.proto = c
  else if b = key "dport" then pkt.proto = a && inRange (portRange '-' c) pkt.port
  else if b = key "type" then pkt.icmpType = some c
  else false

/-- The verdict of a statement, its last word, when every match before it holds of the
    packet; `daddr` takes a prefix or a set `{ a, b }` of prefixes. -/
def stmtVerdict : List Str → Option Str
  | [v] => some v
  | a :: b :: c :: rest =>
    if b = key "daddr" then
      if c = key "\x7b" then
        if (rest.takeWhile (· ≠ key "\x7d")).any fun w => inPrefix (setElement w) pkt.dst then
          stmtVerdict ((rest.dropWhile (· ≠ key "\x7d")).drop 1)
        else none
      else if inPrefix c pkt.dst then stmtVerdict rest else none
    else if matchHolds pkt a b c then stmtVerdict rest else none
  | _ => none
termination_by ws => ws.length
decreasing_by
  all_goals simp_wf
  all_goals
    first
    | omega
    | have := (List.dropWhile_sublist (fun x => !decide (x = key "\x7d")) (l := rest)).length_le
      omega

/-- The statements of the chain block of a program: the lines after `  chain <chain> {`,
    up to the line `  }` that closes the block. -/
def blockStatements (chain program : Str) : List Str :=
  (((Str.split program '\n').dropWhile (· ≠ "  chain ".toList ++ chain ++ " \x7b".toList)).drop 1).takeWhile
    (· ≠ "  \x7d".toList)

/-- The verdict of the first statement of the chain block whose matches all hold of the
    packet. -/
def programVerdict (chain program : Str) : Option Str :=
  (blockStatements chain program).findSome? fun st => stmtVerdict inPrefix pkt (words st)

end Reading

/-! ## Section 2: The words of a statement -/

/-- Words written each after a space. -/
def spaced (ws : List Str) : Str := (ws.map (' ' :: ·)).flatten

/-- A text that is empty or starts with a space, as every clause of a statement is. -/
def SpaceLed (t : Str) : Prop := ∀ c, t.head? = some c → c = ' '

/-- A character of a word of `nft`: one a value may hold in a statement, and neither a
    blank, which `nft` splits words at, nor a comma. -/
def WordChar (c : Char) : Prop := ValueChar c ∧ c ≠ ' ' ∧ c ≠ '\t' ∧ c ≠ ','

instance : DecidablePred WordChar := fun _ => inferInstanceAs (Decidable (_ ∧ _))

/-- A word of `nft`: not empty, and made of word characters. -/
def NftWord (w : Str) : Prop := w ≠ [] ∧ Str.Only WordChar w

instance : DecidablePred NftWord := fun _ => inferInstanceAs (Decidable (_ ∧ _))

@[simp] theorem words_nil : words [] = [] := rfl

theorem words_append_space (s t : Str) : words (s ++ ' ' :: t) = words s ++ words t := by
  rw [words, Str.split_append_cons, List.filter_append]
  rfl

theorem words_space_cons (t : Str) : words (' ' :: t) = words t :=
  words_append_space [] t

theorem words_append {s t : Str} (ht : SpaceLed t) : words (s ++ t) = words s ++ words t := by
  cases t with
  | nil => rw [List.append_nil, words_nil, List.append_nil]
  | cons c t =>
    rw [ht c rfl, words_append_space, words_space_cons]

theorem SpaceLed.append {s t : Str} (hs : SpaceLed s) (ht : SpaceLed t) : SpaceLed (s ++ t) := by
  cases s with
  | nil => exact ht
  | cons c s => exact hs

theorem spaceLed_spaced (ws : List Str) : SpaceLed (spaced ws) := by
  cases ws with
  | nil => intro c h; cases h
  | cons w ws => intro c h; cases h; rfl

theorem NftWord.no_space {w : Str} (h : NftWord w) : ' ' ∉ w := fun hc => (h.2 ' ' hc).2.1 rfl

theorem words_word {w : Str} (h : NftWord w) : words w = [w] := by
  rw [words, Str.split_of_not_mem h.no_space]
  simp [h.1]

/-- Words written each after a space read back as themselves. -/
theorem words_spaced : ∀ {ws : List Str}, (∀ w ∈ ws, NftWord w) → words (spaced ws) = ws
  | [], _ => rfl
  | w :: ws, h => by
    show words (' ' :: w ++ spaced ws) = w :: ws
    rw [List.cons_append, words_space_cons, words_append (spaceLed_spaced ws),
      words_word (h w (List.mem_cons_self w ws))]
    exact congrArg _ (words_spaced fun w' hw' => h w' (List.mem_cons_of_mem w hw'))

/-- The words of the elements of a set as `join` writes them: each but the last with its
    comma. -/
def commaWords : List Str → List Str
  | [] => []
  | [x] => [x]
  | x :: y :: rest => (x ++ [',']) :: commaWords (y :: rest)

theorem NftWord.append_comma {w : Str} (h : NftWord w) : words (w ++ [',']) = [w ++ [',']] := by
  rw [words, Str.split_of_not_mem]
  · simp
  · simp only [List.mem_append, List.mem_singleton, not_or]
    exact ⟨h.no_space, by decide⟩

theorem words_join : ∀ {xs : List Str}, (∀ x ∈ xs, NftWord x) →
    words (Str.join ", ".toList xs) = commaWords xs
  | [], _ => rfl
  | [x], h => by simpa [Str.join, List.intercalate] using words_word (h x (List.mem_singleton_self x))
  | x :: y :: rest, h => by
    have e : Str.join ", ".toList (x :: y :: rest) =
        (x ++ [',']) ++ ' ' :: Str.join ", ".toList (y :: rest) := by
      rw [Str.join_cons_cons]
      simp
    rw [e, words_append_space, NftWord.append_comma (h x (List.mem_cons_self _ _)),
      words_join fun z hz => h z (List.mem_cons_of_mem x hz)]
    rfl

/-- A set literal reads as `{`, its elements with their commas, and `}`. -/
theorem words_setLiteral {xs : List Str} (h : ∀ x ∈ xs, NftWord x) :
    words (setLiteral xs) = key "\x7b" :: (commaWords xs ++ [key "\x7d"]) := by
  have e : setLiteral xs = key "\x7b" ++ ' ' :: (Str.join ", ".toList xs ++ ' ' :: key "\x7d") := by
    simp [setLiteral, key]
  rw [e, words_append_space, words_append_space, words_join h]
  rfl

theorem NftWord.ne_brace {w : Str} (h : NftWord w) : w ≠ key "\x7d" ∧ w ≠ key "\x7b" := by
  constructor <;> rintro rfl <;> exact absurd (h.2 _ (List.mem_singleton_self _)).1 (by decide)

theorem close_not_mem_commaWords : ∀ {xs : List Str}, (∀ x ∈ xs, NftWord x) →
    key "\x7d" ∉ commaWords xs
  | [], _ => List.not_mem_nil _
  | [x], h => by
    rw [commaWords, List.mem_singleton]
    exact fun e => (h x (List.mem_singleton_self x)).ne_brace.1 e.symm
  | x :: y :: rest, h => by
    rw [commaWords, List.mem_cons, not_or]
    refine ⟨fun e => ?_, close_not_mem_commaWords fun z hz => h z (List.mem_cons_of_mem x hz)⟩
    have := congrArg List.getLast? e
    simp [key] at this

theorem setElement_comma (x : Str) : setElement (x ++ [',']) = x := by
  simp [setElement]

theorem setElement_word {x : Str} (h : NftWord x) : setElement x = x := by
  unfold setElement
  rw [if_neg]
  intro hl
  exact (h.2 ',' (List.mem_of_getLast?_eq_some hl)).2.2.2 rfl

theorem any_commaWords (f : Str → Bool) : ∀ {xs : List Str}, (∀ x ∈ xs, NftWord x) →
    (commaWords xs).any (fun w => f (setElement w)) = xs.any f
  | [], _ => rfl
  | [x], h => by simp [commaWords, setElement_word (h x (List.mem_singleton_self x))]
  | x :: y :: rest, h => by
    rw [commaWords, List.any_cons, setElement_comma,
      any_commaWords f fun z hz => h z (List.mem_cons_of_mem x hz)]
    simp only [List.any_cons]

/-! ## Section 3: Reading the clauses of a statement -/

/-- Every value of a rule is an `nft` word. -/
def WordValues (rule : Dict) : Prop := ∀ kv ∈ rule.items, NftWord kv.2

instance : DecidablePred WordValues := fun _ => List.decidableBAll _ _

theorem WordValues.get {rule : Dict} (h : WordValues rule) {k v : Str}
    (hv : rule.get k = some v) : NftWord v :=
  h _ (Dict.get_mem hv)

section Clauses

variable {inPrefix : Str → Str → Bool} {env : Env} {family : Family} {pkt : Packet family}
  {rule : Dict}

@[simp] theorem stmtVerdict_single (v : Str) : stmtVerdict inPrefix pkt [v] = some v := by
  rw [stmtVerdict]

@[simp] theorem stmtVerdict_nil : stmtVerdict inPrefix pkt [] = none := by
  rw [stmtVerdict.eq_def]

theorem stmtVerdict_match {a b c : Str} (rest : List Str) (hb : b ≠ key "daddr") :
    stmtVerdict inPrefix pkt (a :: b :: c :: rest) =
      if matchHolds pkt a b c then stmtVerdict inPrefix pkt rest else none := by
  rw [stmtVerdict, if_neg hb]

theorem stmtVerdict_prefix (a : Str) {c : Str} (rest : List Str) (hc : c ≠ key "\x7b") :
    stmtVerdict inPrefix pkt (a :: key "daddr" :: c :: rest) =
      if inPrefix c pkt.dst then stmtVerdict inPrefix pkt rest else none := by
  rw [stmtVerdict, if_pos rfl, if_neg hc]

/-- A destination set reads as the prefixes it lists. -/
theorem stmtVerdict_set (a : Str) {xs : List Str} (hxs : ∀ x ∈ xs, NftWord x)
    (rest : List Str) :
    stmtVerdict inPrefix pkt (a :: key "daddr" :: (words (setLiteral xs) ++ rest)) =
      if xs.any (inPrefix · pkt.dst) then stmtVerdict inPrefix pkt rest else none := by
  have hc : ∀ w ∈ commaWords xs, decide (w ≠ key "\x7d") = true :=
    fun w hw => decide_eq_true fun e => close_not_mem_commaWords hxs (e ▸ hw)
  rw [words_setLiteral hxs, List.cons_append, stmtVerdict, if_pos rfl, if_pos rfl,
    List.append_assoc, List.takeWhile_append_of_pos hc, List.dropWhile_append_of_pos hc,
    List.singleton_append, List.takeWhile_cons_of_neg (by simp), List.dropWhile_cons_of_neg (by simp),
    List.append_nil, any_commaWords (inPrefix · pkt.dst) hxs]
  rfl

theorem stmtVerdict_spaced3 {a b c : Str} (ha : NftWord a) (hb : NftWord b) (hc : NftWord c)
    (hbd : b ≠ key "daddr") (rest : List Str) :
    stmtVerdict inPrefix pkt (words (spaced [a, b, c]) ++ rest) =
      if matchHolds pkt a b c then stmtVerdict inPrefix pkt rest else none := by
  rw [words_spaced (by simp [ha, hb, hc]), List.cons_append, List.cons_append, List.cons_append,
    List.nil_append, stmtVerdict_match rest hbd]

/-- The protocol clause reads as the `proto` option. -/
theorem stmtVerdict_protoClause (hrule : WordValues rule) (rest : List Str) :
    stmtVerdict inPrefix pkt (words (protoClause rule family) ++ rest) =
      if protoHolds rule pkt then stmtVerdict inPrefix pkt rest else none := by
  unfold protoClause protoHolds
  split
  · next h => rw [h]; rfl
  · next p hp =>
    rw [hp, show " ip protocol ".toList ++ p = spaced [key "ip", key "protocol", p] by
      simp [spaced, key], stmtVerdict_spaced3 (by decide) (by decide) (hrule.get hp) (by decide)]
    simp [matchHolds, protoName, key]
  · next p hp =>
    have hw : NftWord (if p = key "icmp" then key "icmpv6" else p) := by
      split
      · decide
      · exact hrule.get hp
    rw [hp, show " ip6 nexthdr ".toList ++ (if p = key "icmp" then key "icmpv6" else p) =
      spaced [key "ip6", key "nexthdr", if p = key "icmp" then key "icmpv6" else p] by
      simp [spaced, key], stmtVerdict_spaced3 (by decide) (by decide) hw (by decide)]
    simp [matchHolds, protoName, key]

/-- The ICMP clause reads as the `icmptype` option. -/
theorem stmtVerdict_icmpClause (hrule : WordValues rule) (rest : List Str) :
    stmtVerdict inPrefix pkt (words (icmpClause rule family) ++ rest) =
      if icmpHolds rule pkt then stmtVerdict inPrefix pkt rest else none := by
  unfold icmpClause icmpHolds
  split
  · next h => rw [h]; rfl
  · next t ht =>
    rw [ht, show " icmp type ".toList ++ t = spaced [key "icmp", key "type", t] by
      simp [spaced, key], stmtVerdict_spaced3 (by decide) (by decide) (hrule.get ht) (by decide)]
    simp [matchHolds, key]
  · next t ht =>
    rw [ht, show " icmpv6 type ".toList ++ t = spaced [key "icmpv6", key "type", t] by
      simp [spaced, key], stmtVerdict_spaced3 (by decide) (by decide) (hrule.get ht) (by decide)]
    simp [matchHolds, key]

theorem nftWord_fullmask {a : Str} (h : Str.Only WordChar a) (family : Family) :
    NftWord (a ++ fullmask family) :=
  ⟨by cases family <;> simp [fullmask], Str.only_append.2 ⟨h, by cases family <;> decide⟩⟩

theorem words_daddr_set (family : Family) (xs : List Str) :
    words (' ' :: ip_match family ++ " daddr ".toList ++ setLiteral xs) =
      ip_match family :: key "daddr" :: words (setLiteral xs) := by
  have e : ' ' :: ip_match family ++ " daddr ".toList ++ setLiteral xs =
      (' ' :: ip_match family) ++ ' ' :: (key "daddr" ++ ' ' :: setLiteral xs) := by
    simp [key]
  have hip : NftWord (ip_match family) := by cases family <;> decide
  rw [e, words_append_space, words_space_cons, words_word hip, words_append_space,
    words_word (by decide)]
  rfl

/-- The destination clause reads as the destination options of a rule with at most one. -/
theorem stmtVerdict_daddrClause (hfull : FullHostPrefixes inPrefix family)
    (hrule : WordValues rule) (hone : OneDestination rule)
    (henv : env.ResolvesOnly WordChar family) {daddr : Str}
    (h : daddrClause env rule family = .ok daddr) (rest : List Str) :
    stmtVerdict inPrefix pkt (words daddr ++ rest) =
      if destHolds inPrefix env rule pkt then stmtVerdict inPrefix pkt rest else none := by
  unfold daddrClause at h
  unfold destHolds
  split at h
  · next d hd =>
    cases h
    have hw := hrule.get hd
    rw [hd, hone.get_eq_none (by decide) (by decide) (by decide) hd,
      hone.get_eq_none (by decide) (by decide) (by decide) hd,
      show " ip daddr ".toList ++ d = spaced [key "ip", key "daddr", d] by simp [spaced, key],
      words_spaced (by simp [hw]; decide), List.cons_append, List.cons_append, List.cons_append,
      List.nil_append, stmtVerdict_prefix _ rest hw.ne_brace.2]
    simp
  · next d h4 hd =>
    cases h
    have hw := hrule.get hd
    rw [h4, hd, hone.get_eq_none (by decide) (by decide) (by decide) hd,
      show " ip6 daddr ".toList ++ d = spaced [key "ip6", key "daddr", d] by simp [spaced, key],
      words_spaced (by simp [hw]; decide), List.cons_append, List.cons_append, List.cons_append,
      List.nil_append, stmtVerdict_prefix _ rest hw.ne_brace.2]
    simp
  · next host h4 h6 hh =>
    obtain ⟨addrs, hr, rfl⟩ := map_eq_ok.1 h
    have hxs : ∀ x ∈ (addrs.map (· ++ fullmask family)).dedup, NftWord x := by
      intro x hx
      obtain ⟨a, ha, rfl⟩ := List.mem_map.1 (List.mem_dedup.1 hx)
      exact nftWord_fullmask (mem_resolveHost henv hr a ha) family
    rw [h4, h6, hh, words_daddr_set, List.cons_append, List.cons_append, stmtVerdict_set _ hxs,
      any_dedup, any_fullmask hfull]
    simp only [Option.all, resolvesTo, getaddrinfo_of_resolveHost hr, Bool.true_and]
  · next h4 h6 hh =>
    cases h
    rw [h4, h6, hh]
    rfl

/-- The nameserver set of a DNS rule reads as "the destination is a nameserver". -/
theorem stmtVerdict_dnsSet (hfull : FullHostPrefixes inPrefix family) {N : List Str}
    (hN : ∀ a ∈ N, Str.Only WordChar a) (rest : List Str) :
    stmtVerdict inPrefix pkt
        (words (' ' :: ip_match family ++ " daddr ".toList ++
          setLiteral (N.map (· ++ fullmask family))) ++ rest) =
      if decide (pkt.dst ∈ N) then stmtVerdict inPrefix pkt rest else none := by
  have hxs : ∀ x ∈ N.map (· ++ fullmask family), NftWord x := by
    intro x hx
    obtain ⟨a, ha, rfl⟩ := List.mem_map.1 hx
    exact nftWord_fullmask (hN a ha) family
  rw [words_daddr_set, List.cons_append, List.cons_append, stmtVerdict_set _ hxs, any_fullmask hfull]

end Clauses

/-! ## Section 4: The statements of one rule -/

/-- What the selector text of a rule asks of a packet: its protocol, destination and ICMP
    options and, for a DNS rule, a nameserver as destination. -/
def selHolds (inPrefix : Str → Str → Bool) (env : Env) {family : Family} (N : List Str)
    (rule : Dict) (pkt : Packet family) : Bool :=
  protoHolds rule pkt && destHolds inPrefix env rule pkt &&
    (!isDnsRule rule || decide (pkt.dst ∈ N)) && icmpHolds rule pkt

/-- What the port clauses of the statements of a rule ask of a packet: `p dport n` for
    the rule's protocol `p`, `tcp dport n` or `udp dport n` without one. -/
def portClause {family : Family} (rule : Dict) (ports : Option Str) (pkt : Packet family) : Bool :=
  match ports, rule.get (key "proto") with
  | some d, some p => decide (pkt.proto = p) && inRange (portRange '-' d) pkt.port
  | some d, none => (decide (pkt.proto = key "tcp") || decide (pkt.proto = key "udp")) &&
      inRange (portRange '-' d) pkt.port
  | none, _ => true

/-- What the first-match law asks of a rule in the nftables backend: values that are `nft`
    words, protocols among `ruleProtos`, at most one destination option, ports written `N`
    or `N-M`, and for a `specialtarget=dns` rule, ports `53`, `53-53` or ports without 53. -/
structure LawfulRule (rule : Dict) : Prop where
  words : WordValues rule
  protos : (rule.get (key "proto")).all (· ∈ ruleProtos)
  oneDestination : OneDestination rule
  portsText : (rule.get (key "dstports")).all (PortsText ·)
  dnsPorts : isDnsRule rule → (rule.get (key "dstports")).all fun d =>
    d = key "53" || d = key "53-53" || !inRange (portRange '-' d) (some 53)

instance {rule : Dict} : Decidable (LawfulRule rule) :=
  decidable_of_iff (_ ∧ _ ∧ _ ∧ _ ∧ _)
    ⟨fun ⟨a, b, c, d, e⟩ => ⟨a, b, c, d, e⟩, fun ⟨a, b, c, d, e⟩ => ⟨a, b, c, d, e⟩⟩

/-- Written ports name a range. -/
theorem LawfulRule.portsForm {rule : Dict} (h : LawfulRule rule) :
    (rule.get (key "dstports")).all fun d => (portRange '-' d).isSome := by
  have hp := h.portsText
  revert hp
  cases rule.get (key "dstports") with
  | none => exact fun _ => rfl
  | some d =>
    rw [Option.all_some, Option.all_some]
    exact fun hp => (of_decide_eq_true hp).1

theorem nftWord_of_piece {d x : Str} {sep : Char} (hd : NftWord d) (hx : x ∈ Str.split d sep)
    (hdig : Str.isdigit x) : NftWord x := by
  refine ⟨fun e => ?_, hd.2.mono (Str.subset_of_mem_split hx)⟩
  subst e
  cases hdig

/-- Collapsing `N-N` to `N` keeps the ports a rule names. -/
theorem dstportsOf_some {rule : Dict} (hrule : WordValues rule)
    (hform : (rule.get (key "dstports")).all fun d => (portRange '-' d).isSome) {d' : Str}
    (h : dstportsOf rule = some d') :
    ∃ d, rule.get (key "dstports") = some d ∧ portRange '-' d' = portRange '-' d ∧ NftWord d' := by
  obtain ⟨d, hd, rfl⟩ := Option.map_eq_some'.1 h
  have hw := hrule.get hd
  rw [hd, Option.all_some] at hform
  refine ⟨d, hd, ?_⟩
  split
  · next h1 =>
    rcases portRange_isSome hform with ⟨x, hx, -⟩ | ⟨x, y, hxy, hdx, -⟩
    · have hxd : x = d := by
        have : ['-'].intercalate (d.splitOn '-') = d := List.intercalate_splitOn d '-'
        rw [← Str.split, hx] at this
        simpa [List.intercalate] using this
      rw [hx, List.headD_cons, hxd]
      exact ⟨rfl, hw⟩
    · have hxy' : x = y := by
        by_contra hne
        rw [hxy, List.Nodup.dedup (List.nodup_cons.2 ⟨fun hm => hne (List.mem_singleton.1 hm),
          List.nodup_singleton y⟩)] at h1
        cases h1
      subst hxy'
      have hmem : x ∈ Str.split d '-' := hxy ▸ List.mem_cons_self x _
      rw [hxy, List.headD_cons, portRange, portRange,
        Str.split_of_not_mem (Str.not_mem_of_mem_split hmem), hxy]
      exact ⟨by simp [hdx], nftWord_of_piece hw hmem hdx⟩
  · exact ⟨rfl, hw⟩

section Statements

variable {inPrefix : Str → Str → Bool} {env : Env} {family : Family} {pkt : Packet family}
  {rule : Dict} {N : List Str}

theorem spaceLed_icmpClause : SpaceLed (icmpClause rule family) := by
  unfold icmpClause
  split <;> intro c hc <;> cases hc <;> rfl

theorem spaceLed_daddrClause {daddr : Str} (h : daddrClause env rule family = .ok daddr) :
    SpaceLed daddr := by
  unfold daddrClause at h
  split at h
  · cases h; intro c hc; cases hc; rfl
  · cases h; intro c hc; cases hc; rfl
  · obtain ⟨_, -, rfl⟩ := map_eq_ok.1 h
    intro c hc; cases hc; rfl
  · cases h; intro c hc; cases hc

/-- The selector text of a rule reads as its protocol, destination, nameserver and ICMP
    options. -/
theorem stmtVerdict_selectorText (hfull : FullHostPrefixes inPrefix family)
    (hrule : WordValues rule) (hone : OneDestination rule) (henv : env.ResolvesOnly WordChar family)
    (hN : ∀ a ∈ N, Str.Only WordChar a) {daddr : Str} (hd : daddrClause env rule family = .ok daddr)
    (rest : List Str) :
    stmtVerdict inPrefix pkt (words (selectorText (N.map (· ++ fullmask family)) family rule daddr) ++ rest) =
      if selHolds inPrefix env N rule pkt then stmtVerdict inPrefix pkt rest else none := by
  have hdl := spaceLed_daddrClause hd
  have hsl : SpaceLed (' ' :: ip_match family ++ " daddr ".toList ++
      setLiteral (N.map (· ++ fullmask family))) := fun c hc => by cases hc; rfl
  unfold selHolds
  by_cases hdns : isDnsRule rule
  · have e : selectorText (N.map (· ++ fullmask family)) family rule daddr =
        protoClause rule family ++ (daddr ++ ((' ' :: ip_match family ++ " daddr ".toList ++
          setLiteral (N.map (· ++ fullmask family))) ++ icmpClause rule family)) := by
      rw [selectorText, if_pos hdns]
      simp only [List.append_assoc]
    rw [e, words_append (hdl.append (hsl.append spaceLed_icmpClause)),
      words_append (hsl.append spaceLed_icmpClause), words_append spaceLed_icmpClause,
      List.append_assoc, List.append_assoc, List.append_assoc,
      stmtVerdict_protoClause hrule, stmtVerdict_daddrClause hfull hrule hone henv hd,
      stmtVerdict_dnsSet hfull hN, stmtVerdict_icmpClause hrule, hdns]
    simp only [Bool.not_true, Bool.false_or, Bool.and_eq_true, ite_and]
  · have e : selectorText (N.map (· ++ fullmask family)) family rule daddr =
        protoClause rule family ++ (daddr ++ icmpClause rule family) := by
      rw [selectorText, if_neg hdns, List.append_assoc]
    rw [e, words_append (hdl.append spaceLed_icmpClause), words_append spaceLed_icmpClause,
      List.append_assoc, List.append_assoc, stmtVerdict_protoClause hrule,
      stmtVerdict_daddrClause hfull hrule hone henv hd, stmtVerdict_icmpClause hrule,
      Bool.eq_false_iff.2 hdns]
    simp only [Bool.not_false, Bool.true_or, Bool.and_true, Bool.and_eq_true, ite_and]

theorem findSome?_singleton {α β : Type} (f : α → Option β) (a : α) : [a].findSome? f = f a := by
  cases h : f a <;> simp [List.findSome?_cons, h]

theorem matchHolds_dport (p d : Str) :
    matchHolds pkt p (key "dport") d = (decide (pkt.proto = p) && inRange (portRange '-' d) pkt.port) := by
  rw [matchHolds, if_neg (by decide), if_pos rfl]

theorem stmtVerdict_tail {S : Bool} {sel : Str}
    (hsel : ∀ tail, stmtVerdict inPrefix pkt (words sel ++ tail) =
      if S then stmtVerdict inPrefix pkt tail else none)
    {p d a : Str} (hp : NftWord p) (hd : NftWord d) (ha : NftWord a) :
    stmtVerdict inPrefix pkt (words (sel ++ spaced [p, key "dport", d, a])) =
      if S && (decide (pkt.proto = p) && inRange (portRange '-' d) pkt.port) then some a
      else none := by
  rw [words_append (spaceLed_spaced _), words_spaced (by simp [hp, hd, ha]; decide), hsel,
    stmtVerdict_match _ (by decide), matchHolds_dport, stmtVerdict_single]
  simp only [Bool.and_eq_true, ite_and]

/-- The statements a rule is emitted with read as its selector text and its port clause. -/
theorem findSome?_emitted {sel : Str} {S : Bool}
    (hsel : ∀ tail, stmtVerdict inPrefix pkt (words sel ++ tail) =
      if S then stmtVerdict inPrefix pkt tail else none)
    {ports : Option Str} (hports : ∀ d, ports = some d → NftWord d)
    (hproto : ∀ p, rule.get (key "proto") = some p → NftWord p) {a : Str} (ha : NftWord a) :
    (emitted rule sel ports a).findSome? (fun st => stmtVerdict inPrefix pkt (words st)) =
      if S && portClause rule ports pkt then some a else none := by
  unfold emitted portClause
  cases ports with
  | none =>
    rw [findSome?_singleton, words_append_space, hsel, words_word ha, Bool.and_true,
      stmtVerdict_single]
  | some d =>
    have hd := hports d rfl
    cases hp : rule.get (key "proto") with
    | some p =>
      dsimp only
      rw [findSome?_singleton, show sel ++ ' ' :: p ++ " dport ".toList ++ d ++ ' ' :: a =
        sel ++ spaced [p, key "dport", d, a] by simp [spaced, key],
        stmtVerdict_tail hsel (hproto p hp) hd ha]
    | none =>
      dsimp only
      rw [List.findSome?_cons, findSome?_singleton,
        show sel ++ " tcp dport ".toList ++ d ++ ' ' :: a = sel ++ spaced [key "tcp", key "dport", d, a] by
          simp [spaced, key],
        show sel ++ " udp dport ".toList ++ d ++ ' ' :: a = sel ++ spaced [key "udp", key "dport", d, a] by
          simp [spaced, key],
        stmtVerdict_tail hsel (by decide) hd ha, stmtVerdict_tail hsel (by decide) hd ha]
      cases S <;> cases decide (pkt.proto = key "tcp") <;> cases decide (pkt.proto = key "udp") <;>
        cases inRange (portRange '-' d) pkt.port <;> rfl

/-- A `p dport n` clause after the protocol clause of `p` asks no more than the ports, which
    only `tcp` and `udp` packets carry. -/
theorem dport_guard {p : Str} (hp : rule.get (key "proto") = some p) {R : Bool}
    (hR : R = true → pkt.port.isSome) :
    (protoHolds rule pkt && (decide (pkt.proto = p) && R)) = (protoHolds rule pkt && R) := by
  unfold protoHolds protoName
  rw [hp, Option.all_some, Bool.eq_iff_iff]
  simp only [Bool.and_eq_true, decide_eq_true_eq]
  refine ⟨fun ⟨h1, _, h3⟩ => ⟨h1, h3⟩, fun ⟨h1, h3⟩ => ⟨h1, ?_, h3⟩⟩
  split at h1
  · obtain ⟨q, hq⟩ := Option.isSome_iff_exists.1 (hR h3)
    rcases pkt.tcp_or_udp hq with h | h <;> exact absurd (h.symm.trans h1) (by decide)
  · exact h1

/-- Ports hold only of `tcp` and `udp` packets. -/
theorem tcp_udp_guard {R : Bool} (hR : R = true → pkt.port.isSome) :
    ((decide (pkt.proto = key "tcp") || decide (pkt.proto = key "udp")) && R) = R := by
  cases hr : R
  · exact Bool.and_false _
  · obtain ⟨q, hq⟩ := Option.isSome_iff_exists.1 (hR hr)
    rcases pkt.tcp_or_udp hq with h | h <;> rw [h] <;> decide

/-- The port clauses of a rule outside the DNS step read as its `dstports` option. -/
theorem portClause_dstportsOf (hrule : LawfulRule rule) :
    (protoHolds rule pkt && portClause rule (dstportsOf rule) pkt) =
      (protoHolds rule pkt && portsHolds rule pkt) := by
  unfold portClause portsHolds
  cases hd' : dstportsOf rule with
  | none =>
    rw [Option.map_eq_none'.1 hd']
    rfl
  | some d' =>
    obtain ⟨d, hd, hr, -⟩ := dstportsOf_some hrule.words hrule.portsForm hd'
    rw [hd, Option.all_some, ← hr]
    cases hp : rule.get (key "proto") with
    | some p => exact dport_guard hp inRange_isSome
    | none => exact congrArg _ (tcp_udp_guard inRange_isSome)

/-- The port clauses of a rule kept by the DNS step read as port 53. -/
theorem portClause_dns :
    (protoHolds rule pkt && portClause rule (some (key "53")) pkt) =
      (protoHolds rule pkt && decide (pkt.port = some 53)) := by
  have hR : ∀ {b}, b = decide (pkt.port = some 53) → b = true → pkt.port.isSome := by
    rintro b rfl h
    rw [of_decide_eq_true h]
    rfl
  unfold portClause
  cases hp : rule.get (key "proto") with
  | some p =>
    dsimp only
    rw [portRange_fifty_three.1, inRange_single]
    exact dport_guard hp (hR rfl)
  | none =>
    dsimp only
    rw [portRange_fifty_three.1, inRange_single]
    exact congrArg _ (tcp_udp_guard (hR rfl))

/-- The ports of a DNS rule that the DNS step keeps hold of port 53, and of no other. -/
theorem portsHolds_kept (hrule : LawfulRule rule) (hp : dstportsOf rule ∈ [some (key "53"), none]) :
    (portsHolds rule pkt && decide (pkt.port = some 53)) = decide (pkt.port = some 53) := by
  unfold portsHolds
  rcases List.mem_pair.1 hp with h | h
  · obtain ⟨d, hd, hr, -⟩ := dstportsOf_some hrule.words hrule.portsForm h
    rw [hd, Option.all_some, ← hr, portRange_fifty_three.1, inRange_single, Bool.and_self]
  · rw [Option.map_eq_none'.1 h]
    rfl

/-- The ports of a DNS rule that the DNS step drops hold of no packet to port 53. -/
theorem portsHolds_dropped (hrule : LawfulRule rule) (hdns : isDnsRule rule)
    (hp : dstportsOf rule ∉ [some (key "53"), none]) :
    (portsHolds rule pkt && decide (pkt.port = some 53)) = false := by
  have hports := hrule.dnsPorts hdns
  unfold portsHolds
  cases hd : rule.get (key "dstports") with
  | none => exact absurd (by unfold dstportsOf; rw [hd]; simp) hp
  | some d =>
    rw [hd, Option.all_some] at hports
    simp only [Bool.or_eq_true, decide_eq_true_eq, Bool.not_eq_true'] at hports
    rcases hports with (rfl | rfl) | hout
    · exact absurd (by unfold dstportsOf; rw [hd]; decide) hp
    · exact absurd (by unfold dstportsOf; rw [hd]; decide) hp
    · rw [Option.all_some, Bool.eq_false_iff]
      intro h
      simp only [Bool.and_eq_true, decide_eq_true_eq] at h
      rw [h.2, hout] at h
      exact Bool.false_ne_true h.1

/-- The ports a rule is emitted with are one word: `53`, or its `dstports`. -/
theorem effectivePorts_word (hrule : LawfulRule rule) {d : Str} (hd : effectivePorts rule = some d) :
    NftWord d := by
  unfold effectivePorts at hd
  split at hd
  · cases hd
    decide
  · obtain ⟨_, -, -, hw⟩ := dstportsOf_some hrule.words hrule.portsForm hd
    exact hw

/-- The statements of one rule, read back: the rule's action when it matches the packet,
    nothing otherwise. -/
theorem ruleStatements_verdict (hfull : FullHostPrefixes inPrefix family)
    (hrule : LawfulRule rule) (henv : env.ResolvesOnly WordChar family)
    (hN : ∀ a ∈ N, Str.Only WordChar a) {ss : List Str}
    (h : ruleStatements env (N.map (· ++ fullmask family)) family rule = .ok ss) :
    ss.findSome? (fun st => stmtVerdict inPrefix pkt (words st)) =
      if ruleMatches inPrefix env N rule pkt then some (actionOf rule) else none := by
  obtain ⟨daddr, -, hd, hk⟩ := ruleStatements_ok h
  have hsel : ∀ rest, stmtVerdict inPrefix pkt
      (words (selectorText (N.map (· ++ fullmask family)) family rule daddr) ++ rest) =
        if selHolds inPrefix env N rule pkt then stmtVerdict inPrefix pkt rest else none :=
    stmtVerdict_selectorText hfull hrule.words hrule.oneDestination henv hN hd
  unfold ruleMatches dnsHolds
  split at hk
  · next hkept =>
    obtain ⟨a, ha, rfl⟩ := emit_ok hk
    rw [findSome?_emitted hsel (fun _ => effectivePorts_word hrule) (fun p hp => hrule.words.get hp)
      (hrule.words.get ha),
      actionOf, ha, Option.getD_some]
    unfold selHolds effectivePorts
    by_cases hdns : isDnsRule rule
    · obtain ⟨hp, -⟩ := hkept hdns
      have h1 : (protoHolds rule pkt && portClause rule (some (key "53")) pkt) =
          (protoHolds rule pkt && decide (pkt.port = some 53)) := portClause_dns
      have h2 : (portsHolds rule pkt && decide (pkt.port = some 53)) = decide (pkt.port = some 53) :=
        portsHolds_kept hrule hp
      have h3 : ((decide (pkt.proto = key "tcp") || decide (pkt.proto = key "udp")) &&
          decide (pkt.port = some 53)) = decide (pkt.port = some 53) :=
        tcp_udp_guard fun h => by rw [of_decide_eq_true h]; rfl
      rw [if_pos hdns, hdns]
      rw [Bool.eq_iff_iff] at h1 h2 h3
      simp only [Bool.and_eq_true, Bool.or_eq_true, Bool.not_true, Bool.false_or,
        decide_eq_true_eq] at h1 h2 h3 ⊢
      congr 1
      refine propext ⟨fun ⟨⟨⟨⟨hP, hD⟩, hM⟩, hI⟩, hC⟩ => ?_, fun ⟨⟨⟨⟨hP, hD⟩, _⟩, hI⟩, ⟨_, hQ⟩, hM⟩ =>
        ⟨⟨⟨⟨hP, hD⟩, hM⟩, hI⟩, (h1.2 ⟨hP, hQ⟩).2⟩⟩
      have hQ := (h1.1 ⟨hP, hC⟩).2
      exact ⟨⟨⟨⟨hP, hD⟩, (h2.2 hQ).1⟩, hI⟩, h3.2 hQ, hM⟩
    · have h1 : (protoHolds rule pkt && portClause rule (dstportsOf rule) pkt) =
          (protoHolds rule pkt && portsHolds rule pkt) := portClause_dstportsOf hrule
      rw [if_neg hdns, Bool.eq_false_iff.2 hdns]
      rw [Bool.eq_iff_iff] at h1
      simp only [Bool.and_eq_true, Bool.not_false, Bool.true_or, and_true] at h1 ⊢
      congr 1
      exact propext ⟨fun ⟨⟨⟨hP, hD⟩, hI⟩, hC⟩ => ⟨⟨⟨hP, hD⟩, (h1.1 ⟨hP, hC⟩).2⟩, hI⟩,
        fun ⟨⟨⟨hP, hD⟩, hS⟩, hI⟩ => ⟨⟨⟨hP, hD⟩, hI⟩, (h1.2 ⟨hP, hS⟩).2⟩⟩
  · next hdrop =>
    subst hk
    have hdns : isDnsRule rule := Classical.not_imp.1 hdrop |>.1
    rw [hdns, if_neg]
    · rfl
    by_cases hp : dstportsOf rule ∈ [some (key "53"), none]
    · have hn : N = [] := by
        have := Classical.not_imp.1 hdrop |>.2
        simpa [hp] using this
      subst hn
      simp
    · have h0 : (portsHolds rule pkt && decide (pkt.port = some 53)) = false :=
        portsHolds_dropped hrule hdns hp
      rw [Bool.eq_iff_iff] at h0
      simp only [Bool.and_eq_true, Bool.or_eq_true, Bool.not_true, Bool.false_or,
        decide_eq_true_eq] at h0 ⊢
      exact fun ⟨⟨⟨_, hS⟩, _⟩, ⟨_, hQ⟩, _⟩ => Bool.false_ne_true (h0.1 ⟨hS, hQ⟩)

end Statements

/-! ## Section 5: The program against the first matching rule -/

section Program

variable {inPrefix : Str → Str → Bool} {env : Env} {family : Family} {pkt : Packet family}
  {N : List Str} {chain : Str}

/-- The indented statement lines of the chain block. -/
theorem split_indented : ∀ {stmts : List Str}, stmts ≠ [] → (∀ st ∈ stmts, '\n' ∉ st) →
    Str.split ("   ".toList ++ Str.join "\n   ".toList stmts) '\n' = stmts.map ("   ".toList ++ ·)
  | [st], _, h => by
    rw [show Str.join "\n   ".toList [st] = st by simp [Str.join, List.intercalate],
      Str.split_of_not_mem]
    · rfl
    · simpa using h st (List.mem_singleton_self st)
  | st :: st' :: rest, _, h => by
    have e : "   ".toList ++ Str.join "\n   ".toList (st :: st' :: rest) =
        ("   ".toList ++ st) ++ '\n' :: ("   ".toList ++ Str.join "\n   ".toList (st' :: rest)) := by
      rw [Str.join_cons_cons]
      simp
    rw [e, Str.split_append_cons, Str.split_of_not_mem (by simpa using h st (List.mem_cons_self _ _)),
      split_indented (List.cons_ne_nil _ _) fun s hs => h s (List.mem_cons_of_mem st hs)]
    rfl

theorem indented_ne_close (st : Str) : "   ".toList ++ st ≠ "  \x7d".toList := by
  intro e
  have := congrArg (·.get? 2) e
  simp at this

/-- The lines of the program: the flush, the openings of the table and of the chain, the
    statement lines, and the two closings. -/
theorem split_chainProgram (hchain : '\n' ∉ chain) {stmts : List Str} :
    Str.split (chainProgram family chain stmts) '\n' =
      ("flush chain ".toList ++ ip_match family ++ " qubes-firewall ".toList ++ chain) ::
        ("table ".toList ++ ip_match family ++ " qubes-firewall \x7b".toList) ::
          ("  chain ".toList ++ chain ++ " \x7b".toList) ::
            (Str.split ("   ".toList ++ Str.join "\n   ".toList stmts) '\n' ++
              ["  \x7d".toList, "\x7d".toList, []]) := by
  have hip : '\n' ∉ ip_match family := by cases family <;> decide
  have e : chainProgram family chain stmts =
      ("flush chain ".toList ++ ip_match family ++ " qubes-firewall ".toList ++ chain) ++ '\n' ::
        (("table ".toList ++ ip_match family ++ " qubes-firewall \x7b".toList) ++ '\n' ::
          (("  chain ".toList ++ chain ++ " \x7b".toList) ++ '\n' ::
            (("   ".toList ++ Str.join "\n   ".toList stmts) ++ '\n' ::
              ("  \x7d".toList ++ '\n' :: ("\x7d".toList ++ '\n' :: []))))) := by
    simp only [chainProgram, List.append_assoc, List.cons_append]
    rfl
  rw [e, Str.split_append_cons, Str.split_append_cons, Str.split_append_cons,
    Str.split_append_cons, Str.split_append_cons, Str.split_append_cons,
    Str.split_of_not_mem (by simp [hip, hchain]), Str.split_of_not_mem (by simp [hip]),
    Str.split_of_not_mem (by simp [hchain])]
  rfl

/-- The chain block of the program is its statement lines. -/
theorem blockStatements_chainProgram (hchain : '\n' ∉ chain) {stmts : List Str}
    (hs : ∀ st ∈ stmts, '\n' ∉ st) :
    blockStatements chain (chainProgram family chain stmts) =
      Str.split ("   ".toList ++ Str.join "\n   ".toList stmts) '\n' := by
  have hne : ∀ l ∈ Str.split ("   ".toList ++ Str.join "\n   ".toList stmts) '\n',
      l ≠ "  \x7d".toList := by
    by_cases h0 : stmts = []
    · subst h0
      intro l hl
      rw [show Str.split ("   ".toList ++ Str.join "\n   ".toList []) '\n' = ["   ".toList] from rfl,
        List.mem_singleton] at hl
      exact hl ▸ indented_ne_close []
    · rw [split_indented h0 hs]
      intro l hl
      obtain ⟨st, -, rfl⟩ := List.mem_map.1 hl
      exact indented_ne_close st
  unfold blockStatements
  rw [split_chainProgram hchain, List.dropWhile_cons_of_pos (by simp),
    List.dropWhile_cons_of_pos (by simp), List.dropWhile_cons_of_neg (by simp), List.drop_one,
    List.tail_cons, List.takeWhile_append_of_pos (by simpa using hne),
    List.takeWhile_cons_of_neg (by simp), List.append_nil]

/-- The chain block of the program holds the statements it was made from, one a line. -/
theorem programVerdict_chainProgram (hchain : '\n' ∉ chain) {stmts : List Str}
    (hs : ∀ st ∈ stmts, '\n' ∉ st) :
    programVerdict inPrefix pkt chain (chainProgram family chain stmts) =
      stmts.findSome? fun st => stmtVerdict inPrefix pkt (words st) := by
  have hwords : ∀ st, words ("   ".toList ++ st) = words st := fun st => by
    rw [show "   ".toList ++ st = ' ' :: ' ' :: ' ' :: st from rfl, words_space_cons,
      words_space_cons, words_space_cons]
  unfold programVerdict
  rw [blockStatements_chainProgram hchain hs]
  by_cases h0 : stmts = []
  · subst h0
    rw [show Str.split ("   ".toList ++ Str.join "\n   ".toList []) '\n' = ["   ".toList] from rfl,
      findSome?_singleton, show words "   ".toList = [] from rfl, stmtVerdict_nil]
    rfl
  · rw [split_indented h0 hs, List.findSome?_map]
    simp only [Function.comp_def, hwords]

/-- The statements of a rule list, read back: the action of the first rule that matches the
    packet, nothing when none does. -/
theorem body_verdict (hfull : FullHostPrefixes inPrefix family)
    (henv : env.ResolvesOnly WordChar family) (hN : ∀ a ∈ N, Str.Only WordChar a) :
    ∀ {rules : List Dict} {body : List (List Str)}, (∀ r ∈ rules, LawfulRule r) →
      List.Forall₂ (fun r ss => ruleStatements env (N.map (· ++ fullmask family)) family r = .ok ss)
        rules body →
      body.flatten.findSome? (fun st => stmtVerdict inPrefix pkt (words st)) =
        (firstMatch inPrefix env N rules pkt).map actionOf
  | [], [], _, .nil => rfl
  | r :: rs, ss :: body, hrs, .cons hr hrest => by
    rw [List.flatten_cons, List.findSome?_append,
      ruleStatements_verdict hfull (hrs r (List.mem_cons_self r rs)) henv hN hr,
      body_verdict hfull henv hN (fun r' h' => hrs r' (List.mem_cons_of_mem r h')) hrest,
      firstMatch, firstMatch, List.find?_cons]
    cases ruleMatches inPrefix env N r pkt <;> rfl

/-- The nftables backend keeps the first-match meaning.  For rules of the shape
    `LawfulRule` asks, a chain, resolver addresses and nameservers made of word characters,
    and prefixes whose full-host form holds its own address alone, the first statement of
    the chain block that holds of any packet ends with the action of the first rule that
    matches it, and no statement holds when no rule matches. -/
theorem nft_input_first_match (hfull : FullHostPrefixes inPrefix family)
    (hN : dns_addresses env.resolvConf (some family) = .ok N) (hNw : ∀ a ∈ N, Str.Only WordChar a)
    {rules : List Dict} (hrules : ∀ r ∈ rules, LawfulRule r) (hchain : Str.Only WordChar chain)
    (henv : env.ResolvesOnly WordChar family) {P : Str}
    (h : prepare_rules env chain rules family = .ok P) (pkt : Packet family) :
    programVerdict inPrefix pkt chain P = (firstMatch inPrefix env N rules pkt).map actionOf := by
  obtain ⟨dns, body, hdns, hbody, rfl⟩ := prepare_rules_ok h
  obtain ⟨N', hN', rfl⟩ := map_eq_ok.1 hdns
  rw [hN'] at hN
  cases hN
  have hvalue : ∀ c, WordChar c → ValueChar c := fun _ hc => hc.1
  have hline : ∀ st ∈ body.flatten, '\n' ∉ st := by
    intro st hst hn
    obtain ⟨ss, hss, hst⟩ := List.mem_flatten.1 hst
    obtain ⟨r, hr, hrs⟩ := exists_of_forall₂_mem hbody hss
    have hplain := ruleStatements_plain (fun kv hkv => ((hrules r hr).words kv hkv).2.imp hvalue)
      (fun h' addrs he a ha => (henv h' addrs he a ha).imp hvalue)
      (fun a ha => by
        obtain ⟨n, hn, rfl⟩ := List.mem_map.1 ha
        exact Str.only_append.2 ⟨(hNw n hn).imp hvalue, by cases family <;> decide⟩) hrs st hst
    exact hplain.1 '\n' hn (by decide)
  rw [programVerdict_chainProgram (fun hc => (hchain '\n' hc).1.1 (by decide)) hline,
    body_verdict hfull henv hNw hrules hbody]

end Program

/-! ## Section 6: DNS rules -/

/-- The program of the DNS rule without ports and the policy. -/
def acceptDnsProgram : Str :=
  ("flush chain ip qubes-firewall qbs-10-137-0-5\ntable ip qubes-firewall \x7b\n" ++
    "  chain qbs-10-137-0-5 \x7b\n" ++
    "    ip daddr \x7b 10.139.1.1/32 \x7d tcp dport 53 accept\n" ++
    "    ip daddr \x7b 10.139.1.1/32 \x7d udp dport 53 accept\n" ++
    "    drop\n  \x7d\n\x7d\n").toList

set_option maxRecDepth 20000 in
/-- A DNS rule without ports accepts the query, as its meaning says. -/
theorem nft_input_first_match_dns :
    prepare_rules oneNameserver (chain_for_addr (key "10.137.0.5")) [acceptDns none, dropAll] .four =
      .ok acceptDnsProgram ∧
    programVerdict (hostPrefix .four) dnsQuery (chain_for_addr (key "10.137.0.5")) acceptDnsProgram =
      (firstMatch (hostPrefix .four) oneNameserver [key "10.139.1.1"] [acceptDns none, dropAll]
        dnsQuery).map actionOf := by
  have h : prepare_rules oneNameserver (chain_for_addr (key "10.137.0.5"))
      [acceptDns none, dropAll] .four = .ok acceptDnsProgram := by decide
  exact ⟨h, nft_input_first_match (fullHostPrefixes_hostPrefix .four) (by decide) (by decide)
    (by decide) (by decide) (oneNameserver_resolvesOnly _ _) h dnsQuery⟩

set_option maxRecDepth 20000 in
/-- A DNS rule with ports `1-1024` matches the query, but the code keeps the ports of a DNS
    rule only when they collapse to `53`: it drops the rule, and the query falls to the
    policy. -/
theorem dns_wide_ports_dropped :
    prepare_rules oneNameserver (chain_for_addr (key "10.137.0.5"))
        [acceptDns (some (key "1-1024")), dropAll] .four =
      .ok (chainProgram .four (chain_for_addr (key "10.137.0.5")) [key " drop"]) ∧
    programVerdict (hostPrefix .four) dnsQuery (chain_for_addr (key "10.137.0.5"))
        (chainProgram .four (chain_for_addr (key "10.137.0.5")) [key " drop"]) = some (key "drop") ∧
    (firstMatch (hostPrefix .four) oneNameserver [key "10.139.1.1"]
        [acceptDns (some (key "1-1024")), dropAll] dnsQuery).map actionOf = some (key "accept") := by
  refine ⟨rfl, ?_, by decide⟩
  rw [programVerdict_chainProgram (by decide) (by decide), findSome?_singleton,
    show words (key " drop") = [key "drop"] from rfl, stmtVerdict_single]

end QubesFirewall.Nftables
