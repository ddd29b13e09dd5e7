import LeyLine.Tree

/-!
# The two allow-lists of the signing helper

`sign/src/host/allowlist.rs`, and the admission of `/resolve` in `host/server.rs`. A caller
may sign with a URL that starts with a prefix of its own or of `*`; `/resolve` emits the
bytes behind a URL that starts with a listed prefix. At startup each prefix of the second
list is searched for the marks of a signing key. The search looks at the prefix and
admission at the URL, so what is refused in a prefix can stand after it.
-/

namespace LeyLine.Sign

abbrev Url := List Char

/-! ## Who may sign with what -/

/-- The prefixes of each caller; those of `*` are everyone's. -/
structure SignAllowList where
  map : List Char → Option (List Url)

def SignAllowList.isAllowed (allow : SignAllowList) (caller : List Char) (url : Url) : Bool :=
  (allow.map caller).any (·.any (·.isPrefixOf url)) ||
    (allow.map ['*']).any (·.any (·.isPrefixOf url))

/-! ## What `/resolve` may emit -/

def dangerousSubstrings : List (List Char) :=
  ["master-sk", "master_sk", "signing-key", "signing_key", "-sk", "_sk", "signing",
    "master"].map String.toList

structure ResolveAllowViolation where
  prefixText : Url
  matched : List Char
  deriving DecidableEq

def marker? (text : List Char) : Option (List Char) :=
  dangerousSubstrings.find? fun needle => needle <:+: text.map Char.toLower

def validateResolveAllowPrefixes (entries : List Url) : Except (List ResolveAllowViolation) Unit :=
  match entries.filterMap fun entry => (marker? entry).map (⟨entry, ·⟩) with
  | [] => .ok ()
  | violations => .error violations

/-- The admission of `get_resolve`, after authentication and the rate limit. -/
def resolveAllowed (entries : List Url) (url : Url) : Bool := entries.any (·.isPrefixOf url)

/-- A URL `/resolve` must not emit: one that bears a mark, or that some caller may sign with. -/
def SigningKey (sign : SignAllowList) (url : Url) : Prop :=
  (marker? url).isSome ∨ ∃ caller, sign.isAllowed caller url = true

theorem marker?_append (text needle : List Char) (hmem : needle ∈ dangerousSubstrings)
    (hlower : needle.map Char.toLower = needle) : (marker? (text ++ needle)).isSome := by
  rw [marker?, List.find?_isSome]
  refine ⟨needle, hmem, decide_eq_true ?_⟩
  rw [List.map_append, hlower]
  exact (List.suffix_append _ _).isInfix

/-- **Only a list of nothing emits no signing key**, for an accepted list as for any other:
a prefix with a mark written after it is a URL that the prefix admits. -/
theorem resolve_emits_no_key_iff (entries : List Url) (sign : SignAllowList) :
    (∀ url, SigningKey sign url → resolveAllowed entries url = false) ↔ entries = [] := by
  constructor
  · intro hnone
    rcases entries with _ | ⟨entry, rest⟩
    · rfl
    · have hkey : SigningKey sign (entry ++ "-sk".toList) :=
        .inl (marker?_append entry _ (by decide) (by decide))
      have hstarts : entry.isPrefixOf (entry ++ "-sk".toList) = true :=
        List.isPrefixOf_iff_prefix.mpr (List.prefix_append _ _)
      have hrefused := hnone _ hkey
      rw [resolveAllowed, List.any_cons, hstarts, Bool.true_or] at hrefused
      cases hrefused
  · rintro rfl url _
    rfl

/-- A list of the vault's keys is accepted, and admits the key that the router signs with. -/
theorem resolve_emits_router_key :
    validateResolveAllowPrefixes ["keychain://com.cloister/".toList] = .ok () ∧
    SigningKey ⟨fun caller =>
        if caller = "router".toList then some ["keychain://com.cloister/master-sk".toList]
        else none⟩
      "keychain://com.cloister/master-sk".toList ∧
    resolveAllowed ["keychain://com.cloister/".toList] "keychain://com.cloister/master-sk".toList =
    true :=
  ⟨by decide, .inl (by decide), by decide⟩

end LeyLine.Sign
