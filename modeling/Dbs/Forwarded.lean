/-
  File:      Dbs/Forwarded.lean
  Subject:   WHOSE REQUEST IT IS (`client_address` in security/features.py with security/networks.py,
             and `TrustedProxyMiddleware` in manager/middleware.py): proxies in front tell the
             client's address in `X-Forwarded-For`, to which a client may have written before.

  `str.lower` is a parameter. What the middleware does to the response is left out.

  * `parseAddress`, `parseNetworks`, `clientAddress` -- the one, as the code has them;
  * `parsedAddress`, `trustedNetworks`, `forwardedClient`, `Meta.forwarded` -- the other;
  * `decisive` -- the entries from the rightmost one on that is not a trusted proxy;
  * `Unchosen` -- an answer depends on these only, whatever is written to the left of them;
  * `client_unchosen` -- both answers are unchosen, and the header is not looked at where the peer is
    not a trusted proxy.
-/
import Dbs.Lib.Addresses
import Dbs.Remote.Redaction

namespace Dbs.Forwarded

open Addresses (Address Network Version ipAddress ipNetwork)
open Remote.Redaction (Text isSpace strip)

/-! ## 1. `client_address` -/

/-- Leaves the brackets or the port out. -/
def parseAddress (text : Text) : Option Address :=
  let candidate := strip text
  if candidate = [] then none
  else if candidate.head? = some '[' ∧ ']' ∈ candidate then
    ipAddress (candidate.tail.takeWhile (· ≠ ']'))
  else if candidate.count ':' = 1 ∧ '.' ∈ candidate then ipAddress (candidate.takeWhile (· ≠ ':'))
  else ipAddress candidate

def minimumPrefix : Version → Nat
  | .four => 8
  | .six => 16

def prefixlen : Network → Nat
  | .v4 _ n => n
  | .v6 _ n => n

/-- What the setting may be. -/
inductive Raw
  | entries (entries : List Text)
  | text (text : Text)
  | other

def networksOf (text : Text) : List Network :=
  ((text.map fun c => if c = ',' then '\n' else c).splitOn '\n').filterMap fun line =>
    if strip line = [] then none
    else (ipNetwork (strip line)).filter fun network =>
      decide (minimumPrefix network.version ≤ prefixlen network)

def parseNetworks : Raw → List Network
  | .entries entries => networksOf (['\n'].intercalate entries)
  | .text text => networksOf text
  | .other => []

def contains (networks : List Network) : Option Address → Bool
  | none => false
  | some address => networks.any fun network => network.contains address

/-- `DBS_TRUST_FORWARDED_FOR`, `DBS_TRUSTED_PROXIES`. -/
structure Settings where
  trustForwardedFor : Bool
  trustedProxies : Raw

def hops (forwarded : Text) : List Text := (forwarded.splitOn ',').map strip

/-- The loop over the hops, the last one first. -/
def lastClient (proxies : List Network) : Option Address → List Text → Option Address
  | client, [] => client
  | _, hop :: rest =>
    let client := parseAddress hop
    if client = none ∨ contains proxies client = false then client
    else lastClient proxies client rest

/-- An absent header is the empty text. -/
def clientAddress (settings : Settings) (remoteAddr forwardedFor : Text) : Text :=
  match parseAddress remoteAddr with
  | none => []
  | some peer =>
    if settings.trustForwardedFor = false then peer.text
    else
      let proxies := parseNetworks settings.trustedProxies
      if contains proxies (some peer) = false then peer.text
      else match lastClient proxies none (hops forwardedFor).reverse with
        | some client => client.text
        | none => []

/-! ## 2. The manager -/

def scopeId : Address → Option Text
  | .v4 _ => none
  | .v6 _ scope => scope

def parsedAddress (raw : Text) : Option Address :=
  (ipAddress (strip raw)).filter fun address => (scopeId address).isNone

/-- Nothing where a network raises. -/
def trustedNetworks (text : Text) : Option (List Network) :=
  ((text.splitOn ',').filter fun part => strip part ≠ []).mapM fun part => ipNetwork (strip part)

def trusted (networks : List Network) : Option Address → Bool
  | none => false
  | some address =>
    networks.any fun network => address.version == network.version && network.contains address

/-- Blank parts are no hops. -/
def managerHops (header : Text) : List Text := (header.splitOn ',').filter fun hop => strip hop ≠ []

/-- The loop over the hops, the last one first. -/
def firstUntrusted (networks : List Network) : List (Option Address) → Option Address
  | [] => none
  | none :: _ => none
  | some hop :: rest =>
    if trusted networks (some hop) then firstUntrusted networks rest else some hop

def forwardedClient (header : Text) (networks : List Network) : Option Text :=
  (firstUntrusted networks ((managerHops header).map parsedAddress).reverse).map Address.text

/-- What the middleware reads and writes of `request.META`. -/
structure Meta where
  remoteAddr : Option Text
  forwardedFor : Option Text
  forwardedProto : Option Text
  urlScheme : Text
  proxyAddr : Option Text

def forwardedSchemes : List Text := ["http".toList, "https".toList]

/-- The scheme that the last proxy tells. -/
def Meta.withScheme (lower : Text → Text) (m : Meta) : Meta :=
  let scheme := lower (strip ((m.forwardedProto.getD []).takeWhile (· ≠ ',')))
  if scheme ∈ forwardedSchemes then { m with urlScheme := scheme } else m

@[simp] theorem Meta.withScheme_remoteAddr {lower : Text → Text} {m : Meta} :
    (m.withScheme lower).remoteAddr = m.remoteAddr := by
  unfold Meta.withScheme
  dsimp only
  split <;> rfl

@[simp] theorem Meta.withScheme_forwardedFor {lower : Text → Text} {m : Meta} :
    (m.withScheme lower).forwardedFor = m.forwardedFor := by
  unfold Meta.withScheme
  dsimp only
  split <;> rfl

/-- `_forwarded` -/
def Meta.forwardedBy (lower : Text → Text) (networks : List Network) (m : Meta) : Meta :=
  let m := m.withScheme lower
  match forwardedClient (m.forwardedFor.getD []) networks with
  | some client =>
    { m with proxyAddr := some (m.remoteAddr.getD []), remoteAddr := some client }
  | none => m

/-- `__call__` in front of the response. -/
def Meta.forwarded (lower : Text → Text) (networks : List Network) (m : Meta) : Meta :=
  let peer := parsedAddress (m.remoteAddr.getD [])
  if networks ≠ [] ∧ trusted networks peer then m.forwardedBy lower networks else m

/-! ## 3. A walk from the right -/

section Walk

variable {α β : Type} {passes : α → Bool} {l q : List α} {x : α}

/-- From the rightmost one on that does not pass; all if every one does. -/
def decisive (passes : α → Bool) : List α → List α
  | [] => []
  | x :: l => if l.all passes then x :: l else decisive passes l

/-- Nothing behind one that does not pass makes a difference. -/
def Halts (passes : α → Bool) (f : List α → β) : Prop :=
  ∀ l q, l.all passes = false → f (l ++ q) = f l

theorem Halts.map {γ : Type} {f : List α → β} (h : Halts passes f) (g : β → γ) :
    Halts passes fun l => g (f l) := fun l q hall => congrArg g (h l q hall)

/-- **A walk from the right** sees the decisive entries. -/
theorem Halts.decisive_eq {f : List α → β} (h : Halts passes f) :
    f (decisive passes l).reverse = f l.reverse := by
  induction l with
  | nil => rfl
  | cons x l ih =>
    rw [decisive]
    cases hall : l.all passes with
    | true => rfl
    | false =>
      rw [if_neg Bool.false_ne_true, ih, List.reverse_cons, h _ _ (by rw [List.all_reverse, hall])]

/-- **What is to the left of one that does not pass is not decisive.** -/
theorem decisive_append (h : q.all passes = false) : decisive passes (l ++ q) = decisive passes q := by
  induction l with
  | nil => rfl
  | cons x l ih =>
    rw [List.cons_append, decisive, if_neg, ih]
    rw [List.all_append, h, Bool.and_false]
    exact Bool.false_ne_true

end Walk

/-! ## 4. What the answers depend on -/

section Answers

variable {proxies networks : List Network} {client : Option Address} {l q : List Text}

/-- The manager compares the versions first, which a network does as well. -/
theorem trusted_eq_contains : trusted networks client = contains networks client := by
  cases client with
  | none => rfl
  | some address =>
    refine List.any_congr rfl fun network => ?_
    cases hin : network.contains address with
    | false => exact Bool.and_false _
    | true => rw [Addresses.version_of_contains hin, beq_self_eq_true, Bool.and_true]

theorem halts_lastClient :
    Halts (fun hop => contains proxies (parseAddress hop)) (lastClient proxies client) := by
  intro l q h
  induction l generalizing client with
  | nil => exact absurd h Bool.true_eq_false.mp
  | cons hop l ih =>
    rw [List.cons_append, lastClient, lastClient]
    split
    · rfl
    · next hgoes =>
        have hpasses : contains proxies (parseAddress hop) = true := by
          simpa using (not_or.mp hgoes).2
        rw [List.all_cons, hpasses, Bool.true_and] at h
        exact ih h

theorem halts_firstUntrusted :
    Halts (fun hop => contains networks (parsedAddress hop))
      fun l : List Text => firstUntrusted networks (l.map parsedAddress) := by
  intro l q h
  induction l with
  | nil => exact absurd h Bool.true_eq_false.mp
  | cons hop l ih =>
    simp only [List.cons_append, List.map_cons]
    cases haddress : parsedAddress hop with
    | none => rfl
    | some address =>
      rw [firstUntrusted, firstUntrusted, trusted_eq_contains]
      split
      · next hpasses =>
          rw [List.all_cons, haddress, hpasses, Bool.true_and] at h
          exact ih h
      · rfl

theorem hops_append (left part : Text) : hops (left ++ ',' :: part) = hops left ++ hops part := by
  have hsplit : (left ++ ',' :: part).splitOn ',' = left.splitOn ',' ++ part.splitOn ',' :=
    List.splitOnP_append_cons left part (beq_self_eq_true _)
  rw [hops, hsplit, List.map_append]
  rfl

theorem managerHops_append (left part : Text) :
    managerHops (left ++ ',' :: part) = managerHops left ++ managerHops part := by
  have hsplit : (left ++ ',' :: part).splitOn ',' = left.splitOn ',' ++ part.splitOn ',' :=
    List.splitOnP_append_cons left part (beq_self_eq_true _)
  rw [managerHops, hsplit, List.filter_append]
  rfl

end Answers

/-- An answer that a client cannot choose: it depends on the decisive entries of the header, and what is
    written to the left of a part with one that does not pass makes no difference. -/
structure Unchosen {β : Type} (answer : Text → β) (entries : Text → List Text) (passes : Text → Bool) :
    Prop where
  agree : ∀ header header', decisive passes (entries header) = decisive passes (entries header') →
    answer header = answer header'
  left : ∀ left part, (entries part).all passes = false → answer (left ++ ',' :: part) = answer part

/-- An answer that is a walk over the entries from the right. -/
theorem Unchosen.of_walk {β : Type} {answer : Text → β} {entries : Text → List Text}
    {passes : Text → Bool} {f : List Text → β} (hanswer : ∀ h, answer h = f (entries h).reverse)
    (hf : Halts passes f)
    (happend : ∀ left part, entries (left ++ ',' :: part) = entries left ++ entries part) :
    Unchosen answer entries passes := by
  have hagree (h h' : Text) (heq : decisive passes (entries h) = decisive passes (entries h')) :
      answer h = answer h' := by
    rw [hanswer, hanswer, ← hf.decisive_eq, heq, hf.decisive_eq]
  refine ⟨hagree, fun left part hpart => hagree _ _ ?_⟩
  rw [happend, decisive_append hpart]

section Results

variable (settings : Settings) (remoteAddr : Text) (lower : Text → Text) (networks : List Network)
  (m : Meta)

/-- A trusted proxy, as `client_address` looks at a hop. -/
def isProxy (hop : Text) : Bool :=
  contains (parseNetworks settings.trustedProxies) (parseAddress hop)

/-- A trusted proxy, as the manager looks at a hop. -/
def isManagerProxy (hop : Text) : Bool := contains networks (parsedAddress hop)

theorem clientAddress_unchosen :
    Unchosen (clientAddress settings remoteAddr) hops (isProxy settings) := by
  let answer (client : Option Address) : Text :=
    match parseAddress remoteAddr with
    | none => []
    | some peer =>
      if settings.trustForwardedFor = false then peer.text
      else if contains (parseNetworks settings.trustedProxies) (some peer) = false then peer.text
      else match client with
        | some client => client.text
        | none => []
  exact .of_walk (fun _ => rfl) (halts_lastClient.map answer) hops_append

/-- **An untrusted peer** is the client, whatever the header says. -/
theorem clientAddress_of_untrusted (header : Text)
    (h : settings.trustForwardedFor = false ∨ isProxy settings remoteAddr = false) :
    clientAddress settings remoteAddr header =
      ((parseAddress remoteAddr).map Address.text).getD [] := by
  unfold clientAddress
  unfold isProxy at h
  cases hpeer : parseAddress remoteAddr with
  | none => rfl
  | some peer =>
    rw [hpeer] at h
    obtain h | h := h
    · simp [h]
    · by_cases htrust : settings.trustForwardedFor = false <;> simp [h, htrust]

/-- What the middleware leaves as the address. -/
theorem remoteAddr_forwarded :
    (m.forwarded lower networks).remoteAddr =
      if networks ≠ [] ∧ trusted networks (parsedAddress (m.remoteAddr.getD [])) then
        forwardedClient (m.forwardedFor.getD []) networks <|> m.remoteAddr
      else m.remoteAddr := by
  by_cases hpeer : networks ≠ [] ∧ trusted networks (parsedAddress (m.remoteAddr.getD []))
  · rw [Meta.forwarded, if_pos hpeer, if_pos hpeer, Meta.forwardedBy, Meta.withScheme_forwardedFor]
    cases forwardedClient (m.forwardedFor.getD []) networks with
    | some client => rfl
    | none => exact Meta.withScheme_remoteAddr
  · rw [Meta.forwarded, if_neg hpeer, if_neg hpeer]

theorem remoteAddr_unchosen :
    Unchosen (fun header => ({ m with forwardedFor := some header }.forwarded lower
      networks).remoteAddr)
      managerHops (isManagerProxy networks) := by
  let answer (client : Option Address) : Option Text :=
    if networks ≠ [] ∧ trusted networks (parsedAddress (m.remoteAddr.getD [])) then
      client.map Address.text <|> m.remoteAddr
    else m.remoteAddr
  refine .of_walk (fun header => ?_) (halts_firstUntrusted.map answer) managerHops_append
  rw [remoteAddr_forwarded, List.map_reverse]
  rfl

/-- **A client cannot choose its address**: the answer of `client_address`, and the address that the
    middleware leaves, depend on the peer and on the header from its rightmost entry on that is not a
    trusted proxy; and where the peer is none, or proxies are not trusted, not on the header. -/
theorem client_unchosen :
    Unchosen (clientAddress settings remoteAddr) hops (isProxy settings) ∧
    (settings.trustForwardedFor = false ∨ isProxy settings remoteAddr = false →
      ∀ header header', clientAddress settings remoteAddr header =
        clientAddress settings remoteAddr header') ∧
    Unchosen (fun header => ({ m with forwardedFor := some header }.forwarded lower
      networks).remoteAddr)
      managerHops (isManagerProxy networks) ∧
    (networks = [] ∨ isManagerProxy networks (m.remoteAddr.getD []) = false →
      ∀ header, ({ m with forwardedFor := some header }.forwarded lower networks).remoteAddr =
        m.remoteAddr) := by
  refine ⟨clientAddress_unchosen settings remoteAddr, fun h header header' => ?_,
    remoteAddr_unchosen lower networks m, fun h header => ?_⟩
  · rw [clientAddress_of_untrusted settings remoteAddr header h,
      clientAddress_of_untrusted settings remoteAddr header' h]
  · rw [remoteAddr_forwarded, if_neg]
    rintro ⟨hne, htrusted⟩
    rw [trusted_eq_contains] at htrusted
    exact h.elim hne fun huntrusted => Bool.noConfusion (huntrusted.symm.trans htrusted)

example : clientAddress ⟨true, .text "10.0.0.0/8".toList⟩ "10.0.0.1".toList
    "1.2.3.4, 203.0.113.7, 10.0.0.2".toList = "203.0.113.7".toList := by decide +kernel

end Results

end Dbs.Forwarded
