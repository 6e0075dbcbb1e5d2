import QubesFirewall.Resolv

/-! # What both backends share in `prepare_rules`

    `IptablesWorker.prepare_rules` and `NftablesWorker.prepare_rules` open with the same
    steps: the nameserver list of the family, each address with the full-host mask, and
    three checks on every rule (only supported options, no `dst4` for IPv6, no `dst6` for
    IPv4).  A `dsthost` is resolved by `socket.getaddrinfo` for the family; a failed
    lookup becomes a `RuleParseError`.
-/

namespace QubesFirewall

/-- What the translation reads besides the rules: `/etc/resolv.conf` and the resolver.
    `getaddrinfo host family` is the list of addresses (`item[4][0]`) or the text of the
    `socket.gaierror`. -/
structure Env where
  resolvConf : Str
  getaddrinfo : Str → Family → Except Str (List Str)

/-- The option keys of a rule. -/
def key (s : String) : Str := s.toList

/-- `supported_rule_opts`, the same in both backends. -/
def supported_rule_opts : List Str :=
  ["action", "proto", "dst4", "dst6", "dsthost", "dstports", "specialtarget", "icmptype"].map key

/-- `'/128' if family == 6 else '/32'`. -/
def fullmask : Family → Str
  | .four => "/32".toList
  | .six => "/128".toList

/-- `'ip6' if family == 6 else 'ip'`. -/
def ip_match : Family → Str
  | .four => "ip".toList
  | .six => "ip6".toList

/-- `list(addr + fullmask for addr in self.dns_addresses(family))`. -/
def dnsList (env : Env) (family : Family) : Except PyExc (List Str) :=
  (·.map (· ++ fullmask family)) <$> dns_addresses env.resolvConf (some family)

/-- Every nameserver entry holds no space and no line break. -/
theorem dnsList_no_space {env : Env} {family : Family} {dns : List Str}
    (h : dnsList env family = .ok dns) :
    ∀ a ∈ dns, Str.Only (fun c => c ≠ ' ' ∧ c ≠ '\n') a := by
  obtain ⟨N, hN, rfl⟩ := map_eq_ok.1 h
  intro a ha
  obtain ⟨n, hn, rfl⟩ := List.mem_map.1 ha
  exact Str.only_append.2 ⟨dns_addresses_no_space hN hn, by cases family <;> decide⟩

/-- Python 2 text of a set of strings, `set(['a', 'b'])`; the elements in the order the
    rule holds its keys, where Python prints them in hash order. -/
def setText (xs : List Str) : Str :=
  "set([".toList ++ Str.join ", ".toList (xs.map fun x => ['\x27'] ++ x ++ ['\x27']) ++ "])".toList

/-- The three checks each backend makes on a rule before translating it. -/
def checkRule (rule : Dict) (family : Family) : Except PyExc Unit := do
  let unsupported_opts := rule.keys.filter (· ∉ supported_rule_opts)
  if unsupported_opts ≠ [] then
    throw (.ruleParseError ("Unsupported rule option(s): ".toList ++ setText unsupported_opts))
  if rule.contains (key "dst4") ∧ family = .six then
    throw (.ruleParseError "IPv4 rule found for IPv6 address".toList)
  if rule.contains (key "dst6") ∧ family = .four then
    throw (.ruleParseError "dst6 rule found for IPv4 address".toList)

/-- `socket.getaddrinfo(rule['dsthost'], None, family)`, a failure raised as
    `RuleParseError`. -/
def resolveHost (env : Env) (host : Str) (family : Family) : Except PyExc (List Str) :=
  match env.getaddrinfo host family with
  | .ok addrs => .ok addrs
  | .error e => .error (.ruleParseError ("Failed to resolve ".toList ++ host ++ ": ".toList ++ e))

/-- Every address the resolver returns for the family satisfies `good`. -/
def Env.ResolvesOnly (good : Char → Prop) (env : Env) (family : Family) : Prop :=
  ∀ h addrs, env.getaddrinfo h family = .ok addrs → ∀ a ∈ addrs, Str.Only good a

theorem getaddrinfo_of_resolveHost {env : Env} {family : Family} {h : Str} {addrs : List Str}
    (hr : resolveHost env h family = .ok addrs) : env.getaddrinfo h family = .ok addrs := by
  unfold resolveHost at hr
  split at hr
  · next heq => cases hr; exact heq
  · cases hr

theorem mem_resolveHost {good : Char → Prop} {env : Env} {family : Family} {h : Str}
    {addrs : List Str} (henv : env.ResolvesOnly good family)
    (hr : resolveHost env h family = .ok addrs) : ∀ a ∈ addrs, Str.Only good a :=
  henv h addrs (getaddrinfo_of_resolveHost hr)

/-- `rule.get('specialtarget', None) == 'dns'`. -/
def isDnsRule (rule : Dict) : Bool := rule.get (key "specialtarget") = some (key "dns")

end QubesFirewall
