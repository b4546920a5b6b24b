import Tactile.Lib.Text

/-!
The client address behind trusted proxies, as the relay and the publish server
find it, and when a forged `X-Forwarded-For` cannot change it.
-/

namespace Tactile.Relay.ClientIP

open Tactile.Lib.Text

abbrev Text : Type := List Char

/-- The address functions of the standard library. -/
structure Net (Addr Prefix : Type) where
  splitHostPort : Text → Option Text
  parseAddr : Text → Option Addr
  string : Addr → Text
  contains : Prefix → Addr → Bool

/-- `unicode.IsSpace`. -/
def isSpace (c : Char) : Bool :=
  c.toNat ∈ [9, 10, 11, 12, 13, 32, 0x85, 0xA0, 0x1680, 0x2028, 0x2029, 0x202f, 0x205f, 0x3000] ∨
    (0x2000 ≤ c.toNat ∧ c.toNat ≤ 0x200a)

/-- `strings.TrimSpace`. -/
def trimSpace (s : Text) : Text := ((s.dropWhile isSpace).reverse.dropWhile isSpace).reverse

section Code

variable {Addr Prefix : Type} (net : Net Addr Prefix) (trusted : List Prefix)

def isTrusted (a : Addr) : Bool := trusted.any fun p => net.contains p a

/-- The loop over the hops, from the right. -/
def firstUntrusted : List Text → Option Text
  | [] => none
  | part :: parts =>
    match net.parseAddr (trimSpace part) with
    | none => firstUntrusted parts
    | some a => if isTrusted net trusted a then firstUntrusted parts else some (net.string a)

/-- The client IP, honouring `X-Forwarded-For` only when the direct peer is a
trusted proxy. The publish server has this function too. -/
def clientIP (remoteAddr xff : Text) : Text :=
  let host := (net.splitHostPort remoteAddr).getD remoteAddr
  match net.parseAddr host with
  | none => host
  | some peer =>
    if ¬ isTrusted net trusted peer then host
    else if xff = [] then host
    else
      let parts := xff.splitOn ','
      match firstUntrusted net trusted parts.reverse with
      | some ip => ip
      | none =>
        -- Every hop is trusted: the leftmost entry is the original client.
        match net.parseAddr (trimSpace (parts.headD [])) with
        | some a => net.string a
        | none => host

/-- The direct peer is a trusted proxy. -/
def FromProxy (remoteAddr : Text) : Prop :=
  ∃ peer, net.parseAddr ((net.splitHostPort remoteAddr).getD remoteAddr) = some peer ∧
    isTrusted net trusted peer = true

/-- The text of a hop is the address of a trusted proxy. -/
def IsProxy (hop : Text) : Prop :=
  ∃ a, net.parseAddr (trimSpace hop) = some a ∧ isTrusted net trusted a = true

/-- The end of a header from the rightmost hop that is no trusted proxy on. -/
structure Chain where
  hop : Text
  proxies : List Text
  noComma : ',' ∉ hop ∧ ∀ p ∈ proxies, ',' ∉ p
  notProxy : ¬ IsProxy net trusted hop
  allProxies : ∀ p ∈ proxies, IsProxy net trusted p

variable {net trusted}

def Chain.text (c : Chain net trusted) : Text := c.hop ++ c.proxies.flatMap fun p => ',' :: p

/-- The header with a text to the left of the chain, or with none. -/
def Chain.header (c : Chain net trusted) : Option Text → Text
  | none => c.text
  | some left => left ++ ',' :: c.text

/-- What stands to the left of the chain has no influence on the result, which
is the address of the hop when that parses. -/
def Chain.Unspoofed (c : Chain net trusted) (remoteAddr : Text) : Prop :=
  (∀ left left', clientIP net trusted remoteAddr (c.header left) =
    clientIP net trusted remoteAddr (c.header left')) ∧
  ∀ left a, net.parseAddr (trimSpace c.hop) = some a →
    clientIP net trusted remoteAddr (c.header left) = net.string a

end Code

section Walk

variable {Addr Prefix : Type} {net : Net Addr Prefix} {trusted : List Prefix}

theorem firstUntrusted_proxies {hops : List Text} (h : ∀ p ∈ hops, IsProxy net trusted p)
    (rest : List Text) :
    firstUntrusted net trusted (hops ++ rest) = firstUntrusted net trusted rest := by
  induction hops with
  | nil => rfl
  | cons hop hops ih =>
      obtain ⟨a, hparse, htrusted⟩ := h hop List.mem_cons_self
      rw [List.cons_append, firstUntrusted, hparse]
      dsimp only
      rw [if_pos htrusted]
      exact ih fun p hp => h p (List.mem_cons_of_mem _ hp)

theorem Chain.splitOn_text (c : Chain net trusted) :
    c.text.splitOn ',' = c.hop :: c.proxies := by
  have hall : ∀ (proxies : List Text), (∀ p ∈ proxies, ',' ∉ p) → ∀ hop, ',' ∉ hop →
      (hop ++ proxies.flatMap fun p => ',' :: p).splitOn ',' = hop :: proxies := by
    intro proxies
    induction proxies with
    | nil =>
        intro _ hop hhop
        rw [List.flatMap_nil, List.append_nil, List.splitOn_eq_singleton hhop]
    | cons p proxies ih =>
        intro hproxies hop hhop
        have hrest := ih (fun q hq => hproxies q (List.mem_cons_of_mem _ hq)) p
          (hproxies p List.mem_cons_self)
        rw [List.flatMap_cons, List.cons_append, List.splitOn_append_cons_self, hrest,
          List.splitOn_eq_singleton hhop]
        rfl
  exact hall c.proxies c.noComma.2 c.hop c.noComma.1

/-- The hops to the left of the chain. -/
def leftHops : Option Text → List Text
  | none => []
  | some left => left.splitOn ','

theorem Chain.splitOn_header (c : Chain net trusted) (left : Option Text) :
    (c.header left).splitOn ',' = leftHops left ++ c.hop :: c.proxies := by
  cases left with
  | none => exact c.splitOn_text
  | some left =>
      rw [Chain.header, List.splitOn_append_cons_self, c.splitOn_text]
      rfl

/-- From the right, the walk passes the proxies and comes to the hop. -/
theorem Chain.firstUntrusted_header (c : Chain net trusted) (left : Option Text) :
    firstUntrusted net trusted ((c.header left).splitOn ',').reverse =
      firstUntrusted net trusted (c.hop :: (leftHops left).reverse) := by
  have hproxies : ∀ p ∈ c.proxies.reverse, IsProxy net trusted p := fun p hp =>
    c.allProxies p (List.mem_reverse.mp hp)
  rw [c.splitOn_header, List.reverse_append, List.reverse_cons, List.append_assoc,
    firstUntrusted_proxies hproxies]
  rfl

/-- The walk stops at a hop that parses. -/
theorem Chain.firstUntrusted_of_parses (c : Chain net trusted) (left : Option Text) {a : Addr}
    (ha : net.parseAddr (trimSpace c.hop) = some a) :
    firstUntrusted net trusted ((c.header left).splitOn ',').reverse = some (net.string a) := by
  have huntrusted : ¬ isTrusted net trusted a = true := fun h => c.notProxy ⟨a, ha, h⟩
  rw [c.firstUntrusted_header, firstUntrusted, ha]
  exact if_neg huntrusted

/-- The walk skips a hop that does not parse. -/
theorem Chain.firstUntrusted_of_skips (c : Chain net trusted) (left : Option Text)
    (h : net.parseAddr (trimSpace c.hop) = none) :
    firstUntrusted net trusted ((c.header left).splitOn ',').reverse =
      firstUntrusted net trusted (leftHops left).reverse := by
  rw [c.firstUntrusted_header, firstUntrusted, h]

end Walk

section Spoofing

variable {Addr Prefix : Type} {net : Net Addr Prefix} {trusted : List Prefix}
variable {remoteAddr : Text}

theorem clientIP_of_proxy (h : FromProxy net trusted remoteAddr) {xff : Text} (hxff : xff ≠ []) :
    clientIP net trusted remoteAddr xff =
      match firstUntrusted net trusted (xff.splitOn ',').reverse with
      | some ip => ip
      | none =>
        match net.parseAddr (trimSpace ((xff.splitOn ',').headD [])) with
        | some a => net.string a
        | none => (net.splitHostPort remoteAddr).getD remoteAddr := by
  obtain ⟨peer, hparse, htrusted⟩ := h
  unfold clientIP
  dsimp only
  rw [hparse]
  dsimp only
  rw [if_neg (not_not_intro htrusted), if_neg hxff]

/-- A forged address to the left of a hop that does not parse is the result,
trusted or not. -/
theorem Chain.forged (c : Chain net trusted) (h : FromProxy net trusted remoteAddr)
    (hskips : net.parseAddr (trimSpace c.hop) = none) (ip : Text) {a : Addr} (hcomma : ',' ∉ ip)
    (hip : net.parseAddr (trimSpace ip) = some a) :
    clientIP net trusted remoteAddr (c.header (some ip)) = net.string a := by
  have hne : c.header (some ip) ≠ [] := List.append_ne_nil_of_right_ne_nil _ (List.cons_ne_nil _ _)
  have hleft : leftHops (some ip) = [ip] := List.splitOn_eq_singleton hcomma
  rw [clientIP_of_proxy h hne, c.firstUntrusted_of_skips _ hskips, c.splitOn_header, hleft]
  change (match firstUntrusted net trusted [ip] with
    | some ip => ip
    | none =>
      match net.parseAddr (trimSpace ip) with
      | some a => net.string a
      | none => _) = _
  rw [firstUntrusted, hip]
  dsimp only
  by_cases htrusted : isTrusted net trusted a = true
  · rw [if_pos htrusted]
    rfl
  · rw [if_neg htrusted]

/-- Texts to the left of the chain have no influence exactly when its hop parses
as an address. The standard library reads no address from the empty text, and
two plain ones as themselves. -/
theorem unspoofed_iff (c : Chain net trusted) (h : FromProxy net trusted remoteAddr) {a b : Addr}
    (hempty : net.parseAddr [] = none)
    (ha : net.parseAddr "192.0.2.1".toList = some a) (hstring : net.string a = "192.0.2.1".toList)
    (hb : net.parseAddr "192.0.2.2".toList = some b) (hstring' : net.string b = "192.0.2.2".toList) :
    c.Unspoofed remoteAddr ↔ (net.parseAddr (trimSpace c.hop)).isSome = true := by
  constructor
  · rintro ⟨hsame, -⟩
    by_contra hnone
    have hskips : net.parseAddr (trimSpace c.hop) = none := by simpa using hnone
    have hfirst := c.forged h hskips "192.0.2.1".toList (by decide) ha
    have hsecond := c.forged h hskips "192.0.2.2".toList (by decide) hb
    rw [hsame _ (some "192.0.2.2".toList), hsecond, hstring, hstring'] at hfirst
    exact absurd hfirst (by decide)
  · intro hsome
    obtain ⟨addr, haddr⟩ := Option.isSome_iff_exists.mp hsome
    have hnonempty : ∀ left, c.header left ≠ [] := by
      intro left hnil
      have hsplit := c.splitOn_header left
      rw [hnil, List.splitOn_nil] at hsplit
      have hhop : c.hop ∈ [([] : Text)] := hsplit ▸ List.mem_append_right _ List.mem_cons_self
      rw [List.mem_singleton.mp hhop] at haddr
      have hnone : net.parseAddr (trimSpace []) = none := hempty
      rw [hnone] at haddr
      cases haddr
    have hresult : ∀ left, clientIP net trusted remoteAddr (c.header left) = net.string addr := by
      intro left
      rw [clientIP_of_proxy h (hnonempty left), c.firstUntrusted_of_parses left haddr]
    refine ⟨fun left left' => (hresult left).trans (hresult left').symm, fun left a' ha' => ?_⟩
    rw [hresult left, Option.some.inj (haddr.symm.trans ha')]

end Spoofing

section Example

/-- A decimal octet. -/
def octet (s : Text) : Option ℕ :=
  let value := Nat.ofDigitChars 10 s 0
  if s = Nat.toDigits 10 value ∧ value < 256 then some value else none

/-- The dotted addresses of four octets, and networks given by their first octets. -/
def ipv4 : Net (List ℕ) (List ℕ) where
  splitHostPort := fun s =>
    match s.splitOn ':' with
    | [host, _] => some host
    | _ => none
  parseAddr := fun s =>
    match (s.splitOn '.').map octet with
    | [some a, some b, some c, some d] => some [a, b, c, d]
    | _ => none
  string := fun a => List.intercalate ['.'] (a.map (Nat.toDigits 10))
  contains := fun p a => p <+: a

example : clientIP ipv4 [[10]] "10.0.0.1:80".toList "203.0.113.5, 66.66.66.66, 10.9.9.9".toList =
    "66.66.66.66".toList := by decide +kernel

/-- The one hop `unknown`, which some proxies write for a client that they hide. -/
def unknownHop : Chain ipv4 [[10]] where
  hop := "unknown".toList
  proxies := []
  noComma := ⟨by decide, nofun⟩
  notProxy := by
    rintro ⟨a, ha, -⟩
    have hnone : ipv4.parseAddr (trimSpace "unknown".toList) = none := by decide +kernel
    rw [hnone] at ha
    cases ha
  allProxies := nofun

theorem fromProxy_ten : FromProxy ipv4 [[10]] "10.0.0.1:80".toList :=
  ⟨[10, 0, 0, 1], by decide +kernel, by decide +kernel⟩

theorem unspoofed_iff_unknownHop :
    unknownHop.Unspoofed "10.0.0.1:80".toList ↔
      (ipv4.parseAddr (trimSpace unknownHop.hop)).isSome = true :=
  unspoofed_iff unknownHop fromProxy_ten (a := [192, 0, 2, 1]) (b := [192, 0, 2, 2])
    (by decide +kernel) (by decide +kernel) (by decide +kernel) (by decide +kernel)
    (by decide +kernel)

/-- A client writes an address of its choice to the left of `unknown`, and that
is its address. -/
theorem unknownHop_spoofed :
    clientIP ipv4 [[10]] "10.0.0.1:80".toList "unknown".toList = "10.0.0.1".toList ∧
    clientIP ipv4 [[10]] "10.0.0.1:80".toList "1.2.3.4,unknown".toList = "1.2.3.4".toList ∧
    ¬ unknownHop.Unspoofed "10.0.0.1:80".toList := by
  have hplain : clientIP ipv4 [[10]] "10.0.0.1:80".toList (unknownHop.header none) =
      "10.0.0.1".toList := by decide +kernel
  have hforged : clientIP ipv4 [[10]] "10.0.0.1:80".toList
      (unknownHop.header (some "1.2.3.4".toList)) = "1.2.3.4".toList := by decide +kernel
  refine ⟨hplain, hforged, fun h => ?_⟩
  have hsame := h.1 none (some "1.2.3.4".toList)
  rw [hplain, hforged] at hsame
  exact absurd hsame (by decide)

end Example

end Tactile.Relay.ClientIP
