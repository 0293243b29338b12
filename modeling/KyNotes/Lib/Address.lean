import Mathlib.Data.List.Basic

/-!
# Network addresses in text

The part of Go's `net`, `net/netip` and `strings` that reads addresses from headers, over byte strings: `trimSpace`,
`splitHostPort`, `parseIP` with both families, networks and their members, and the text of an address.

An address is its bytes, 4 or 16 of them; `parseIP` gives 16, with an IPv4 address in its mapped form, and `to4` takes it
out again.
-/

namespace Net

abbrev Bytes := List UInt8

abbrev IP := List UInt8

/-! ## Text -/

/-- The bytes of an ASCII text. -/
def ascii (s : String) : Bytes := s.toList.map fun c => UInt8.ofNat c.toNat

/-- The UTF-8 text of each character that Unicode counts as a space. -/
def spaces : List Bytes :=
  [[9], [10], [11], [12], [13], [32], [0xC2, 0x85], [0xC2, 0xA0], [0xE1, 0x9A, 0x80], [0xE2, 0x80, 0xA8],
    [0xE2, 0x80, 0xA9], [0xE2, 0x80, 0xAF], [0xE2, 0x81, 0x9F], [0xE3, 0x80, 0x80]] ++
  (List.range 11).map fun n => [0xE2, 0x80, UInt8.ofNat (0x80 + n)]

/-- The text without the members of `ws` in front of it; each takes a byte at least. -/
def trimUpTo (ws : List Bytes) : Nat → Bytes → Bytes
  | 0, s => s
  | fuel + 1, s =>
    match ws.findSome? fun w => w.isPrefixOf? s with
    | none => s
    | some rest => trimUpTo ws fuel rest

/-- `strings.TrimSpace`. -/
def trimSpace (s : Bytes) : Bytes :=
  let s := trimUpTo spaces s.length s
  (trimUpTo (spaces.map List.reverse) s.length s.reverse).reverse

/-- `net.SplitHostPort`; the host alone. -/
def splitHostPort (hostport : Bytes) : Option Bytes := do
  -- the port starts after the last colon
  let back ← hostport.reverse.idxOf? 58
  let i := hostport.length - 1 - back
  if hostport.head? = some 91 then
    let close ← hostport.idxOf? 93
    if close + 1 ≠ i then none
    else if (hostport.drop 1).contains 91 ∨ (hostport.drop (close + 1)).contains 93 then none
    else some ((hostport.take close).drop 1)
  else
    let host := hostport.take i
    if host.contains 58 ∨ hostport.contains 91 ∨ hostport.contains 93 then none else some host

/-! ## Addresses -/

def isDigit (c : UInt8) : Bool := 48 ≤ c && c ≤ 57

/-- One field of a dotted address: no leading zero, 255 at most. -/
def parseField (s : Bytes) : Option UInt8 :=
  if s.isEmpty ∨ !s.all isDigit ∨ 1 < s.length ∧ s.head? = some 48 then none
  else
    let n := s.foldl (fun n c => n * 10 + (c.toNat - 48)) 0
    if 255 < n then none else some (UInt8.ofNat n)

/-- `parseIPv4Fields`. -/
def parseIPv4Fields (s : Bytes) : Option (List UInt8) :=
  let fields := s.splitOn 46
  if fields.length ≠ 4 then none else fields.mapM parseField

def hexDigit (c : UInt8) : Option Nat :=
  if isDigit c then some (c.toNat - 48)
  else if 97 ≤ c && c ≤ 102 then some (c.toNat - 87)
  else if 65 ≤ c && c ≤ 70 then some (c.toNat - 55)
  else none

/-- The bytes of a dotted address in its IPv6 form. -/
def mapped (v4 : List UInt8) : IP := List.replicate 10 0 ++ [255, 255] ++ v4

/-- The groups of an IPv6 address, from the bytes `ip` read so far; `ellipsis` is the place of a `::`. -/
def parseGroups : Nat → Bytes → List UInt8 → Option Nat → Option (Bytes × List UInt8 × Option Nat)
  | 0, s, ip, ellipsis => some (s, ip, ellipsis)
  | fuel + 1, s, ip, ellipsis =>
    let digits := s.takeWhile fun c => (hexDigit c).isSome
    let acc := digits.foldl (fun n c => n * 16 + (hexDigit c).getD 0) 0
    let rest := s.drop digits.length
    if digits.length = 0 ∨ 4 < digits.length then none
    else if rest.head? = some 46 then
      -- a trailing IPv4 address
      if ellipsis = none ∧ ip.length ≠ 12 ∨ 16 < ip.length + 4 then none
      else do
        let v4 ← parseIPv4Fields s
        some ([], ip ++ v4, ellipsis)
    else
      let ip := ip ++ [UInt8.ofNat (acc / 256), UInt8.ofNat acc]
      match rest with
      | [] => some ([], ip, ellipsis)
      | [_] => none
      | c :: d :: rest =>
        if c ≠ 58 then none
        else if d = 58 then
          if ellipsis.isSome then none
          else if rest.isEmpty then some ([], ip, some ip.length)
          else parseGroups fuel rest ip (some ip.length)
        else parseGroups fuel (d :: rest) ip ellipsis

/-- `parseIPv6` of a text without a zone. -/
def parseIPv6 (s : Bytes) : Option IP := do
  if s = [58, 58] then return List.replicate 16 0
  let leading := s.take 2 = [58, 58]
  let (rest, ip, ellipsis) ← parseGroups 8 (if leading then s.drop 2 else s) [] (if leading then some 0 else none)
  if ¬rest.isEmpty then none
  else if ip.length < 16 then
    let e ← ellipsis
    some (ip.take e ++ List.replicate (16 - ip.length) 0 ++ ip.drop e)
  else if ellipsis.isSome then none
  else some ip

/-- `net.ParseIP`: what stands first, a dot or a colon, tells the family; an address with a zone is refused. -/
def parseIP (s : Bytes) : Option IP := do
  let c ← s.find? fun c => c = 46 ∨ c = 58 ∨ c = 37
  if c = 46 then mapped <$> parseIPv4Fields s
  else if c = 58 then if s.contains 37 then none else parseIPv6 s
  else none

/-- `IP.To4`. -/
def to4 (ip : IP) : Option IP :=
  if ip.length = 4 then some ip
  else if ip.length = 16 ∧ ip.take 12 = List.replicate 10 0 ++ [255, 255] then some (ip.drop 12)
  else none

/-! ## Networks -/

structure IPNet where
  ip : IP
  mask : List UInt8
  deriving DecidableEq, Repr

/-- `networkNumberAndMask`; both are empty when they do not fit. -/
def IPNet.numberAndMask (n : IPNet) : IP × List UInt8 :=
  match to4 n.ip with
  | some v4 =>
    if n.mask.length = 4 then (v4, n.mask) else if n.mask.length = 16 then (v4, n.mask.drop 12) else ([], [])
  | none => if n.ip.length = 16 ∧ n.mask.length = 16 then (n.ip, n.mask) else ([], [])

/-- `IPNet.Contains`. -/
def IPNet.contains (n : IPNet) (ip : IP) : Bool :=
  let (nn, m) := n.numberAndMask
  let ip := (to4 ip).getD ip
  ip.length == nn.length && (List.zipWith (· &&& ·) nn m == List.zipWith (· &&& ·) ip m)

/-! ## The text of an address -/

def decimal (n : Nat) : Bytes := (Nat.toDigits 10 n).map fun c => UInt8.ofNat c.toNat

def hex (n : Nat) : Bytes := (Nat.toDigits 16 n).map fun c => UInt8.ofNat c.toNat

/-- The groups of 16 bits. -/
def groups : IP → List Nat
  | hi :: lo :: rest => (hi.toNat * 256 + lo.toNat) :: groups rest
  | _ => []

/-- The first longest run of two zero groups or more, as its start and its length. -/
def zeroRun (gs : List Nat) : Option (Nat × Nat) :=
  (List.range gs.length).foldl (fun best i =>
    let l := ((gs.drop i).takeWhile (· = 0)).length
    if 2 ≤ l ∧ (best.map Prod.snd).getD 0 < l then some (i, l) else best) none

def join (sep : Bytes) (parts : List Bytes) : Bytes := sep.intercalate parts

/-- `IP.String` of 4 or 16 bytes. -/
def IP.text (ip : IP) : Bytes :=
  match to4 ip with
  | some v4 => join [46] (v4.map fun b => decimal b.toNat)
  | none =>
    let gs := groups ip
    match zeroRun gs with
    | none => join [58] (gs.map hex)
    | some (i, l) => join [58] ((gs.take i).map hex) ++ [58, 58] ++ join [58] ((gs.drop (i + l)).map hex)

end Net
