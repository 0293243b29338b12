import KyNotes.Lib.Address

/-!
# The address of a client behind proxies

`resolvedClientIP` and `rateLimitClientIP` of `internal/httpapi/ratelimit.go`: a request that comes from a trusted proxy
takes its address from the `X-Forwarded-For` lines, walked from the nearest hop toward the client.

* `walk_append`: the walk ends at the first element that is no trusted proxy, so what stands behind it in the walk, and in
  front of it in the list, is never read;
* `client_address_not_spoofed`: so two requests whose lists share a suffix with such an element have one address and one
  bucket, and without a trusted peer the lines have no influence at all.
-/

namespace KyNotes.HttpApi

open Net

/-- What is read of a request; `forwardedFor` has the values of the `X-Forwarded-For` lines, `clientIP` what an earlier
handler left in the context. -/
structure Request where
  remoteAddr : Bytes
  forwardedFor : List Bytes
  clientIP : Option Bytes := none

def remoteIP (r : Request) : Option IP :=
  match splitHostPort r.remoteAddr with
  | none => parseIP r.remoteAddr
  | some host => parseIP host

def trusted (ip : Option IP) (proxies : List IPNet) : Bool :=
  match ip with
  | none => false
  | some ip => proxies.any fun n => n.contains ip

/-- `strings.Split(strings.Join(values, ","), ",")`. -/
def forwardedChain (values : List Bytes) : List Bytes := (join [44] values).splitOn 44

/-- The loop over the chain, nearest hop first. -/
def walk (peer : Option IP) (proxies : List IPNet) : List Bytes → Option IP
  | [] => peer
  | e :: chain =>
    match parseIP (trimSpace e) with
    | none => peer
    | some ip => if !trusted (some ip) proxies then some ip else walk peer proxies chain

def resolvedClientIP (r : Request) (behindProxy : Bool) (proxies : List IPNet) : Option IP :=
  if !behindProxy || !trusted (remoteIP r) proxies then remoteIP r
  else walk (remoteIP r) proxies (forwardedChain r.forwardedFor).reverse

/-- An IPv6 address is folded to its /64. -/
def normalizeIP (ip : IP) : Bytes :=
  match to4 ip with
  | some v4 => IP.text v4
  | none => IP.text (ip.take 8 ++ List.replicate 8 0)

/-- `auth.ClientIP`. -/
def clientIP (r : Request) : Bytes :=
  match r.clientIP with
  | some ip => ip
  | none =>
    let host := (splitHostPort r.remoteAddr).getD r.remoteAddr
    match parseIP host with
    | some ip => normalizeIP ip
    | none => host

def rateLimitClientIP (r : Request) (behindProxy : Bool) (proxies : List IPNet) : Bytes :=
  match resolvedClientIP r behindProxy proxies with
  | some ip => normalizeIP ip
  | none => clientIP r

/-- The element is the address of a trusted proxy. -/
def IsTrustedProxy (proxies : List IPNet) (e : Bytes) : Prop := trusted (parseIP (trimSpace e)) proxies = true

instance (proxies : List IPNet) (e : Bytes) : Decidable (IsTrustedProxy proxies e) :=
  inferInstanceAs (Decidable (_ = true))

variable {proxies : List IPNet} {peer : Option IP}

/-- The walk passes a trusted proxy. -/
theorem walk_trusted {e : Bytes} {chain : List Bytes} (h : IsTrustedProxy proxies e) :
    walk peer proxies (e :: chain) = walk peer proxies chain := by
  unfold IsTrustedProxy at h
  cases hip : parseIP (trimSpace e) with
  | none =>
    rw [hip] at h
    cases h
  | some ip =>
    rw [hip] at h
    simp only [walk, hip, h, Bool.not_true, Bool.false_eq_true, if_false]

/-- The walk ends at every other element, whatever follows. -/
theorem walk_stops {e : Bytes} (h : ¬IsTrustedProxy proxies e) (chain chain' : List Bytes) :
    walk peer proxies (e :: chain) = walk peer proxies (e :: chain') := by
  unfold IsTrustedProxy at h
  cases hip : parseIP (trimSpace e) with
  | none => simp only [walk, hip]
  | some ip =>
    rw [hip, Bool.not_eq_true] at h
    simp only [walk, hip, h, Bool.not_false, if_true]

/-- What follows an element that is no trusted proxy is never read. -/
theorem walk_append : ∀ {near : List Bytes}, (∃ e ∈ near, ¬IsTrustedProxy proxies e) → ∀ far far' : List Bytes,
    walk peer proxies (near ++ far) = walk peer proxies (near ++ far')
  | [], h, _, _ => by
    obtain ⟨e, he, -⟩ := h
    cases he
  | e :: near, h, far, far' => by
    by_cases he : IsTrustedProxy proxies e
    · have hrest : ∃ e ∈ near, ¬IsTrustedProxy proxies e := by
        obtain ⟨e', he', hn⟩ := h
        refine ⟨e', (List.mem_cons.mp he').resolve_left ?_, hn⟩
        rintro rfl
        exact hn he
      rw [List.cons_append, List.cons_append, walk_trusted he, walk_trusted he]
      exact walk_append hrest far far'
    · exact walk_stops he _ _

/-- Two requests of one peer with one resolved address have one bucket. -/
theorem rateLimit_of_resolved {r r' : Request} {behindProxy : Bool} (hr : r.remoteAddr = r'.remoteAddr)
    (hc : r.clientIP = r'.clientIP)
    (h : resolvedClientIP r behindProxy proxies = resolvedClientIP r' behindProxy proxies) :
    rateLimitClientIP r behindProxy proxies = rateLimitClientIP r' behindProxy proxies := by
  unfold rateLimitClientIP clientIP
  rw [h, hr, hc]

/-- The address that counts, and the bucket with it, is fixed by the suffix of the chain from its last element that is no
trusted proxy on; without a trusted peer, or without a proxy in front, no line has any influence. -/
theorem client_address_not_spoofed (proxies : List IPNet) (behindProxy : Bool) (remoteAddr : Bytes)
    (context : Option Bytes) (lines lines' : List Bytes)
    (h : (∃ front front' suffix, forwardedChain lines = front ++ suffix ∧ forwardedChain lines' = front' ++ suffix ∧
        ∃ e ∈ suffix, ¬IsTrustedProxy proxies e) ∨
      behindProxy = false ∨ trusted (remoteIP ⟨remoteAddr, lines, context⟩) proxies = false) :
    resolvedClientIP ⟨remoteAddr, lines, context⟩ behindProxy proxies =
      resolvedClientIP ⟨remoteAddr, lines', context⟩ behindProxy proxies ∧
    rateLimitClientIP ⟨remoteAddr, lines, context⟩ behindProxy proxies =
      rateLimitClientIP ⟨remoteAddr, lines', context⟩ behindProxy proxies := by
  have hpeer : remoteIP ⟨remoteAddr, lines', context⟩ = remoteIP ⟨remoteAddr, lines, context⟩ := rfl
  have hresolved : resolvedClientIP ⟨remoteAddr, lines, context⟩ behindProxy proxies =
      resolvedClientIP ⟨remoteAddr, lines', context⟩ behindProxy proxies := by
    unfold resolvedClientIP
    rw [hpeer]
    rcases h with ⟨front, front', suffix, hl, hl', e, he, hn⟩ | hoff | hoff
    · dsimp only
      rw [hl, hl', List.reverse_append, List.reverse_append,
        walk_append ⟨e, List.mem_reverse.mpr he, hn⟩ front.reverse front'.reverse]
    · rw [hoff]
      rfl
    · rw [hoff]
      cases behindProxy <;> rfl
  exact ⟨hresolved, rateLimit_of_resolved rfl rfl hresolved⟩

/-- A proxy at 10.0.0.1 that appends the address it saw, 1.2.3.4: a forged 9.9.9.9 in front changes nothing. -/
theorem client_address_not_spoofed_forged :
    resolvedClientIP ⟨ascii "10.0.0.1:80", [ascii "9.9.9.9", ascii "1.2.3.4"], none⟩ true
        [⟨[10, 0, 0, 0], [255, 0, 0, 0]⟩] =
      resolvedClientIP ⟨ascii "10.0.0.1:80", [ascii "1.2.3.4"], none⟩ true [⟨[10, 0, 0, 0], [255, 0, 0, 0]⟩] ∧
    rateLimitClientIP ⟨ascii "10.0.0.1:80", [ascii "9.9.9.9", ascii "1.2.3.4"], none⟩ true
        [⟨[10, 0, 0, 0], [255, 0, 0, 0]⟩] =
      rateLimitClientIP ⟨ascii "10.0.0.1:80", [ascii "1.2.3.4"], none⟩ true [⟨[10, 0, 0, 0], [255, 0, 0, 0]⟩] :=
  client_address_not_spoofed _ _ _ _ _ _ (Or.inl ⟨[ascii "9.9.9.9"], [], [ascii "1.2.3.4"], by decide, by decide,
    ascii "1.2.3.4", by decide, by decide⟩)

end KyNotes.HttpApi
