/-
# Which webhook endpoints are accepted

`validate_webhook_endpoint` should refuse every destination inside the server's own
network.  `LocalHost` says what these destinations are, by the networks they are in and the
names they have, and `SafeEndpoint` what an accepted endpoint should be.

* `blockedIpv4_iff`, `blockedIpv6_iff` : the bit tests of the check are the networks;
* `endpoint_safe_iff` : the check keeps an endpoint safe exactly if it is not `missed`, that
  is, unless the host is a local name that is written with the root dot, or an IPv6 address
  that carries a local IPv4 address in compatible or NAT64 form.
-/
import EvglApi.Fallible
import EvglApi.Networks
import EvglApi.Oauth

open Networks

namespace Service

open Oauth

/-! ## Local destinations -/

/-- The IPv4 address `a.b.c.d`. -/
def ipv4 (a b c d : BitVec 8) : BitVec 32 := a ++ b ++ c ++ d

/-- The networks of the private addresses. -/
def privateNetworks : List (Network 32) :=
  [⟨ipv4 10 0 0 0, 8, by decide⟩, ⟨ipv4 172 16 0 0, 12, by decide⟩,
    ⟨ipv4 192 168 0 0, 16, by decide⟩]

/-- The networks of the addresses that documents use. -/
def documentationNetworks : List (Network 32) :=
  [⟨ipv4 192 0 2 0, 24, by decide⟩, ⟨ipv4 198 51 100 0, 24, by decide⟩,
    ⟨ipv4 203 0 113 0, 24, by decide⟩]

/-- The networks of the IPv4 addresses that are no public destination: private, loopback,
link-local, broadcast, documentation and unspecified. -/
def localIpv4 : List (Network 32) :=
  privateNetworks ++
    [⟨ipv4 127 0 0 0, 8, by decide⟩, ⟨ipv4 169 254 0 0, 16, by decide⟩,
      ⟨ipv4 255 255 255 255, 32, by decide⟩] ++
    documentationNetworks ++ [⟨ipv4 0 0 0 0, 32, by decide⟩]

/-- The networks of the IPv6 addresses that are no public destination: loopback,
unspecified, unique local and link-local. -/
def localIpv6 : List (Network 128) :=
  [⟨1, 128, by decide⟩, ⟨0, 128, by decide⟩,
    ⟨0xfc000000000000000000000000000000, 7, by decide⟩,
    ⟨0xfe800000000000000000000000000000, 10, by decide⟩]

/-- `::ffff:a.b.c.d`. -/
def mappedNetwork : Network 128 := ⟨0x00000000000000000000ffff00000000, 96, by decide⟩

/-- `::a.b.c.d`. -/
def compatibleNetwork : Network 128 := ⟨0, 96, by decide⟩

/-- `64:ff9b::a.b.c.d`. -/
def nat64Network : Network 128 := ⟨0x0064ff9b000000000000000000000000, 96, by decide⟩

/-- The IPv4 address in the last bits of an IPv6 address. -/
def carried (a : BitVec 128) : BitVec 32 := a.extractLsb' 0 32

def LocalIpv4 (a : BitVec 32) : Prop := ∃ net ∈ localIpv4, net.Contains a

instance : DecidablePred LocalIpv4 :=
  fun a => inferInstanceAs (Decidable (∃ net ∈ localIpv4, net.Contains a))

def LocalIpv6 (a : BitVec 128) : Prop :=
  (∃ net ∈ localIpv6, net.Contains a) ∨
    ∃ net ∈ [mappedNetwork, compatibleNetwork, nat64Network],
      net.Contains a ∧ LocalIpv4 (carried a)

/-- A domain name without the root dot. -/
def withoutRoot (letters : List Char) : List Char :=
  if letters.getLast? = some '.' then letters.dropLast else letters

/-- The local host or a name under it. -/
def LocalName (letters : List Char) : Prop :=
  letters = "localhost".toList ∨ ".localhost".toList <:+ letters

/-- Names compare in lower case, and the root dot does not count. -/
def LocalHost : Host → Prop
  | .domain name => LocalName (withoutRoot name.toLower.toList)
  | .ipv4 a => LocalIpv4 a
  | .ipv6 a => LocalIpv6 a

/-- What an accepted endpoint should be. -/
structure SafeEndpoint (endpoint : Url) : Prop where
  https : endpoint.scheme = "https"
  host : ∀ h, endpoint.host = some h → ¬ LocalHost h

/-- The host is one that a URL parser yields: its domain names are in lower case. -/
def ParsedHost (endpoint : Url) : Prop :=
  ∀ name, endpoint.host = some (.domain name) → name.toLower = name

/-! ## The bit tests -/

/-- The tests on the octets are the private networks. -/
theorem isPrivate_iff {a : BitVec 32} :
    isPrivate a = true ↔ ∃ net ∈ privateNetworks, net.Contains a := by
  simp only [isPrivate, privateNetworks, List.exists_mem_cons_iff, List.not_mem_nil, false_and,
    exists_false, or_false, Network.contains_iff, Bool.or_eq_true, beq_iff_eq, or_assoc]
  rfl

theorem isDocumentation_iff {a : BitVec 32} :
    isDocumentation a = true ↔ ∃ net ∈ documentationNetworks, net.Contains a := by
  simp only [isDocumentation, documentationNetworks, List.exists_mem_cons_iff, List.not_mem_nil,
    false_and, exists_false, or_false, Network.contains_iff, Bool.or_eq_true, beq_iff_eq, or_assoc]
  rfl

/-- The IPv4 test of the code and the local networks are the same. -/
theorem blockedIpv4_iff {a : BitVec 32} : blockedIpv4 a = true ↔ LocalIpv4 a := by
  simp only [blockedIpv4, LocalIpv4, localIpv4, List.exists_mem_cons_iff, List.mem_append,
    or_and_right, exists_or, List.not_mem_nil, false_and, exists_false, or_false,
    Network.contains_full, Bool.or_eq_true, beq_iff_eq, or_assoc, isPrivate_iff,
    isDocumentation_iff]
  rw [Network.contains_iff, Network.contains_iff]
  rfl

theorem toIpv4Mapped_eq_some_iff {a : BitVec 128} {v : BitVec 32} :
    toIpv4Mapped a = some v ↔ mappedNetwork.Contains a ∧ carried a = v := by
  rw [toIpv4Mapped, Network.contains_iff, Option.ite_none_right_eq_some, Option.some.injEq]
  rfl

/-- The IPv6 test of the code: local networks, and mapped addresses that carry a local one.
-/
theorem blockedIpv6_iff {a : BitVec 128} :
    blockedIpv6 a = true ↔
      (∃ net ∈ localIpv6, net.Contains a) ∨ mappedNetwork.Contains a ∧ LocalIpv4 (carried a) := by
  have hmapped : (toIpv4Mapped a).any blockedIpv4 = true ↔
      mappedNetwork.Contains a ∧ LocalIpv4 (carried a) := by
    rw [Option.any_eq_true]
    constructor
    · rintro ⟨v, hv, hblocked⟩
      obtain ⟨hnet, rfl⟩ := toIpv4Mapped_eq_some_iff.mp hv
      exact ⟨hnet, blockedIpv4_iff.mp hblocked⟩
    · rintro ⟨hnet, hlocal⟩
      exact ⟨_, toIpv4Mapped_eq_some_iff.mpr ⟨hnet, rfl⟩, blockedIpv4_iff.mpr hlocal⟩
  simp only [blockedIpv6, localIpv6, List.exists_mem_cons_iff, List.not_mem_nil, false_and,
    exists_false, or_false, Network.contains_full, Bool.or_eq_true, beq_iff_eq, or_assoc, hmapped]
  rw [Network.contains_iff, Network.contains_iff, Network.contains_iff]
  rfl

/-! ## What the check misses -/

/-- A local name that ends with the root dot. -/
def missedName (name : String) : Bool :=
  name = "localhost." ∨ ".localhost.".toList.isSuffixOf name.toList

/-- An IPv6 address other than `::` that carries a blocked IPv4 address in compatible or
NAT64 form. -/
def missedIpv6 (a : BitVec 128) : Bool :=
  (compatibleNetwork.Contains a ∧ a ≠ 0 ∨ nat64Network.Contains a) ∧ blockedIpv4 (carried a) = true

/-- A host that the check misses. -/
def missedHost : Host → Bool
  | .domain name => missedName name
  | .ipv4 _ => false
  | .ipv6 a => missedIpv6 a

/-- An HTTPS endpoint whose host the check misses. -/
def missed (endpoint : Url) : Bool :=
  endpoint.scheme == "https" && endpoint.host.any missedHost

theorem not_localName_concat {letters : List Char} : ¬ LocalName (letters ++ ['.']) := by
  rintro (h | ⟨front, h⟩)
  · have hlast := congrArg List.getLast? h
    rw [List.getLast?_concat] at hlast
    exact absurd hlast (by decide)
  · have hlast := congrArg List.getLast? h
    rw [List.getLast?_concat, List.getLast?_append_of_ne_nil _ (by decide)] at hlast
    exact absurd hlast (by decide)

theorem missedName_iff {name : String} :
    missedName name = true ↔ ∃ letters, name.toList = letters ++ ['.'] ∧ LocalName letters := by
  rw [missedName, decide_eq_true_iff, List.isSuffixOf_iff_suffix]
  constructor
  · rintro (rfl | ⟨front, h⟩)
    · exact ⟨"localhost".toList, rfl, Or.inl rfl⟩
    · refine ⟨front ++ ".localhost".toList, ?_, Or.inr (List.suffix_append _ _)⟩
      rw [← h, List.append_assoc]
      rfl
  · rintro ⟨letters, hletters, rfl | ⟨front, rfl⟩⟩
    · exact Or.inl (String.toList_inj.mp hletters)
    · refine Or.inr ⟨front, ?_⟩
      rw [hletters, List.append_assoc]
      rfl

/-- A name is local if the check refuses it or misses it. -/
theorem localName_withoutRoot {name : String} :
    LocalName (withoutRoot name.toList) ↔ LocalName name.toList ∨ missedName name = true := by
  rw [withoutRoot, missedName_iff]
  split
  · next hdot =>
      obtain ⟨letters, hletters⟩ := List.getLast?_eq_some_iff.mp hdot
      rw [hletters, List.dropLast_concat]
      constructor
      · exact fun h => Or.inr ⟨letters, rfl, h⟩
      · rintro (h | ⟨letters', heq, h⟩)
        · exact absurd h not_localName_concat
        · rw [(List.append_inj' heq rfl).1]
          exact h
  · next hdot =>
      refine ⟨Or.inl, fun h => h.resolve_right ?_⟩
      rintro ⟨letters, hletters, -⟩
      exact hdot (by rw [hletters, List.getLast?_concat])

/-- What the IPv6 test misses: compatible and NAT64 addresses that carry a local one. -/
theorem missedIpv6_iff {a : BitVec 128} :
    missedIpv6 a = true ↔
      (compatibleNetwork.Contains a ∧ a ≠ 0 ∨ nat64Network.Contains a) ∧ LocalIpv4 (carried a) := by
  rw [missedIpv6, decide_eq_true_iff, blockedIpv4_iff]

/-- An address is local if the check refuses it or misses it. -/
theorem localIpv6_iff {a : BitVec 128} :
    LocalIpv6 a ↔ blockedIpv6 a = true ∨ missedIpv6 a = true := by
  rw [LocalIpv6, blockedIpv6_iff, missedIpv6_iff]
  simp only [List.exists_mem_cons_iff, List.not_mem_nil, false_and, exists_false, or_false]
  constructor
  · rintro (h | ⟨hnet, h⟩ | ⟨hnet, h⟩ | ⟨hnet, h⟩)
    · exact Or.inl (Or.inl h)
    · exact Or.inl (Or.inr ⟨hnet, h⟩)
    · by_cases hzero : a = 0
      · exact Or.inl (Or.inl ⟨⟨0, 128, by decide⟩, by simp [localIpv6],
          Network.contains_full.mpr hzero⟩)
      · exact Or.inr ⟨Or.inl ⟨hnet, hzero⟩, h⟩
    · exact Or.inr ⟨Or.inr hnet, h⟩
  · rintro ((h | ⟨hnet, h⟩) | ⟨⟨hnet, -⟩ | hnet, h⟩)
    · exact Or.inl h
    · exact Or.inr (Or.inl ⟨hnet, h⟩)
    · exact Or.inr (Or.inr (Or.inl ⟨hnet, h⟩))
    · exact Or.inr (Or.inr (Or.inr ⟨hnet, h⟩))

/-- The networks of the two forms lie outside the larger networks that the check refuses. -/
theorem not_contains_of_carrier {net carrier : Network 128} {a : BitVec 128}
    (hcarrier : carrier ∈ [compatibleNetwork, nat64Network]) (ha : carrier.Contains a)
    (hnet : net ∈ [⟨0xfc000000000000000000000000000000, 7, by decide⟩,
      ⟨0xfe800000000000000000000000000000, 10, by decide⟩, mappedNetwork]) :
    ¬ net.Contains a := by
  have hbases : ∀ carrier ∈ [compatibleNetwork, nat64Network],
      ∀ net ∈ [⟨0xfc000000000000000000000000000000, 7, by decide⟩,
        ⟨0xfe800000000000000000000000000000, 10, by decide⟩, mappedNetwork],
        net.length ≤ carrier.length ∧ ¬ net.Contains carrier.base := by
    decide
  obtain ⟨hlength, hbase⟩ := hbases carrier hcarrier net hnet
  exact Network.not_contains_of_contains hlength hbase ha

/-- What the check misses it does not refuse. -/
theorem not_blockedIpv6_of_missed {a : BitVec 128} (h : missedIpv6 a = true) :
    blockedIpv6 a = false := by
  obtain ⟨hform, hlocal⟩ := missedIpv6_iff.mp h
  obtain ⟨carrier, hcarrier, ha⟩ :
      ∃ carrier ∈ [compatibleNetwork, nat64Network], carrier.Contains a := by
    rcases hform with ⟨ha, -⟩ | ha
    · exact ⟨compatibleNetwork, by simp, ha⟩
    · exact ⟨nat64Network, by simp, ha⟩
  refine Bool.eq_false_iff.mpr fun hblocked => ?_
  rcases blockedIpv6_iff.mp hblocked with ⟨net, hmem, hnet⟩ | ⟨hmapped, -⟩
  · simp only [localIpv6, List.mem_cons, List.not_mem_nil, or_false] at hmem
    rcases hmem with rfl | rfl | rfl | rfl
    · -- the loopback address carries 0.0.0.1, which is not blocked
      obtain rfl := Network.contains_full.mp hnet
      exact absurd hlocal (by decide)
    · obtain rfl := Network.contains_full.mp hnet
      rcases hform with ⟨-, hzero⟩ | hnat
      · exact hzero rfl
      · exact absurd hnat (by decide)
    · exact not_contains_of_carrier hcarrier ha (by simp) hnet
    · exact not_contains_of_carrier hcarrier ha (by simp) hnet
  · exact not_contains_of_carrier hcarrier ha (by simp) hmapped

/-! ## The check -/

/-- A host that the check refuses. -/
def refusedHost : Host → Bool
  | .domain name => name.toLower = "localhost" ∨ ".localhost".toList.isSuffixOf name.toList
  | .ipv4 a => blockedIpv4 a
  | .ipv6 a => blockedIpv6 a

theorem blockedHost_eq_ok_false_iff {host : Option Host} :
    blockedHost host = .ok false ↔ ∃ h, host = some h ∧ refusedHost h = false := by
  cases host with
  | none => simp [blockedHost]
  | some h =>
      cases h with
      | domain name =>
          rw [blockedHost]
          split
          · next hname =>
              have hrefused : refusedHost (.domain name) = true := decide_eq_true hname
              simp [hrefused]
          · next hname =>
              have hrefused : refusedHost (.domain name) = false := decide_eq_false hname
              simp [hrefused]
      | ipv4 a => simp [blockedHost, refusedHost]
      | ipv6 a => simp [blockedHost, refusedHost]

/-- An endpoint is accepted exactly if it is `https` and its host is not refused. -/
theorem validateWebhookEndpoint_eq_ok_iff {endpoint : Url} :
    validateWebhookEndpoint endpoint = .ok () ↔
      endpoint.scheme = "https" ∧ ∃ h, endpoint.host = some h ∧ refusedHost h = false := by
  rw [validateWebhookEndpoint, ← blockedHost_eq_ok_false_iff]
  split
  · next hscheme => simp [hscheme]
  · next hscheme =>
      rw [and_iff_right (not_not.mp hscheme)]
      cases blockedHost endpoint.host with
      | error e => simp
      | ok blocked => cases blocked <;> simp

/-- A parsed host is local if the check refuses it or misses it, and it does not do both. -/
theorem localHost_iff {h : Host} (hparsed : ∀ name, h = .domain name → name.toLower = name) :
    (LocalHost h ↔ refusedHost h = true ∨ missedHost h = true) ∧
      (missedHost h = true → refusedHost h = false) := by
  cases h with
  | domain name =>
      have hlower := hparsed name rfl
      have hrefused : refusedHost (.domain name) = true ↔ LocalName name.toList := by
        rw [refusedHost, hlower, decide_eq_true_iff, List.isSuffixOf_iff_suffix, LocalName,
          String.toList_inj]
      refine ⟨?_, fun hmissed => Bool.eq_false_iff.mpr fun h => ?_⟩
      · rw [LocalHost, hlower, localName_withoutRoot, hrefused, missedHost]
      · obtain ⟨letters, hletters, -⟩ := missedName_iff.mp hmissed
        rw [hrefused, hletters] at h
        exact not_localName_concat h
  | ipv4 a =>
      rw [LocalHost, refusedHost, missedHost, blockedIpv4_iff]
      simp
  | ipv6 a => exact ⟨localIpv6_iff, not_blockedIpv6_of_missed⟩

/-- The check lets no local destination pass that it does not miss.  For every endpoint with
a parsed host: that it is safe if it is accepted holds exactly if the check does not miss
it. -/
theorem endpoint_safe_iff {endpoint : Url} (hparsed : ParsedHost endpoint) :
    (validateWebhookEndpoint endpoint = .ok () → SafeEndpoint endpoint) ↔
      missed endpoint = false := by
  have hhost : ∀ h, endpoint.host = some h → ∀ name, h = .domain name → name.toLower = name :=
    fun h hh name hname => hparsed name (hname ▸ hh)
  rw [validateWebhookEndpoint_eq_ok_iff]
  constructor
  · refine fun hsafe => Bool.eq_false_iff.mpr fun hmissed => ?_
    rw [missed, Bool.and_eq_true, beq_iff_eq, Option.any_eq_true] at hmissed
    obtain ⟨hscheme, h, hh, hmiss⟩ := hmissed
    obtain ⟨hlocal, hrefused⟩ := localHost_iff (hhost h hh)
    exact (hsafe ⟨hscheme, h, hh, hrefused hmiss⟩).host h hh (hlocal.mpr (Or.inr hmiss))
  · rintro hmissed ⟨hscheme, h, hh, hrefused⟩
    refine ⟨hscheme, fun h' hh' hlocal => ?_⟩
    obtain rfl := Option.some.inj (hh.symm.trans hh')
    rw [(localHost_iff (hhost h hh)).1, hrefused] at hlocal
    rw [missed, hh, Option.any_some, hscheme, hlocal.resolve_left Bool.false_ne_true] at hmissed
    cases hmissed

/-- A public address is safe. -/
theorem endpoint_safe_iff_sample :
    SafeEndpoint ⟨"https", some (.ipv6 0x26064700470000000000000000001111)⟩ :=
  (endpoint_safe_iff fun name h => by cases h).mpr (by decide) (by decide)

/-- The local host is accepted when it is written with the root dot. -/
theorem not_endpoint_safe :
    ¬ ∀ endpoint, ParsedHost endpoint → validateWebhookEndpoint endpoint = .ok () →
      SafeEndpoint endpoint := by
  intro hsafe
  have hlower : "localhost.".toLower = "localhost." := by
    rw [← String.toList_inj]
    change (String.map Char.toLower "localhost.").toList = _
    rw [String.toList_map]
    decide
  have hparsed : ∀ name, Host.domain "localhost." = .domain name → name.toLower = name := by
    rintro name hname
    rw [← Host.domain.inj hname, hlower]
  obtain ⟨hlocal, hrefused⟩ := localHost_iff hparsed
  have haccept : validateWebhookEndpoint ⟨"https", some (.domain "localhost.")⟩ = .ok () :=
    validateWebhookEndpoint_eq_ok_iff.mpr ⟨rfl, _, rfl, hrefused (by decide)⟩
  refine (hsafe _ (fun name hname => ?_) haccept).host _ rfl (hlocal.mpr (Or.inr (by decide)))
  exact hparsed name (Option.some.inj hname)

end Service
