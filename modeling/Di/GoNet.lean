import Mathlib.Tactic

/-!
# IP addresses as text

`net.ParseIP` followed by `To4`, and `IP.String` of a four-byte address.  An
IPv4 address is the number its four octets spell, most significant first.
-/

namespace Di
namespace GoNet

/-! ## Reading -/

/-- `dtoi` and `xtoi` give up at this value. -/
def big : ℕ := 0xFFFFFF

def digitVal (c : Char) : Option ℕ :=
  if '0' ≤ c ∧ c ≤ '9' then some (c.toNat - '0'.toNat)
  else if 'a' ≤ c ∧ c ≤ 'f' then some (c.toNat - 'a'.toNat + 10)
  else if 'A' ≤ c ∧ c ≤ 'F' then some (c.toNat - 'A'.toNat + 10)
  else none

def isDigitOf (base : ℕ) (c : Char) : Bool :=
  match digitVal c with
  | some d => d < base
  | none => false

def value (base : ℕ) (digits : List Char) : ℕ :=
  digits.foldl (fun n c => base * n + (digitVal c).getD 0) 0

/-- The number at the front of a text and what follows it. -/
def number (base : ℕ) (text : List Char) : Option (ℕ × List Char) :=
  let digits := text.takeWhile (isDigitOf base)
  let rest := text.dropWhile (isDigitOf base)
  if digits = [] ∨ big ≤ value base digits then none
  else some (value base digits, rest)

def octet (text : List Char) : Option (ℕ × List Char) :=
  match number 10 text with
  | some (n, rest) => if 0xFF < n then none else some (n, rest)
  | none => none

def dot : List Char → Option (List Char)
  | '.' :: rest => some rest
  | _ => none

def parseIPv4 (text : List Char) : Option (List ℕ) := do
  let (a, text) ← octet text
  let (b, text) ← octet (← dot text)
  let (c, text) ← octet (← dot text)
  let (d, text) ← octet (← dot text)
  if text = [] then some [a, b, c, d] else none

/-- The bytes of the groups of an IPv6 address, and where its ellipsis is. -/
def groups : ℕ → List ℕ → Option ℕ → List Char → Option (List ℕ × Option ℕ)
  | 0, bytes, ellipsis, text => if text = [] then some (bytes, ellipsis) else none
  | room + 1, bytes, ellipsis, text =>
      match number 16 text with
      | none => none
      | some (n, rest) =>
          let longer := bytes ++ [n / 256, n % 256]
          if 0xFFFF < n then none
          else match rest with
            | [] => some (longer, ellipsis)
            | '.' :: _ =>
                -- a trailing IPv4 address
                if (ellipsis = none ∧ bytes.length ≠ 12) ∨ 16 < bytes.length + 4 then none
                else (parseIPv4 text).map fun octets => (bytes ++ octets, ellipsis)
            | [':'] => none
            | ':' :: ':' :: rest =>
                if ellipsis.isSome then none
                else if rest = [] then some (longer, some longer.length)
                else groups room longer (some longer.length) rest
            | ':' :: rest => groups room longer ellipsis rest
            | _ => none

/-- The ellipsis stands for at least one zero group. -/
def expand : List ℕ × Option ℕ → Option (List ℕ)
  | (bytes, ellipsis) =>
      if bytes.length < 16 then
        ellipsis.map fun i =>
          bytes.take i ++ List.replicate (16 - bytes.length) 0 ++ bytes.drop i
      else if ellipsis.isSome then none
      else some bytes

def parseIPv6 (text : List Char) : Option (List ℕ) :=
  match text with
  | [':', ':'] => some (List.replicate 16 0)
  | ':' :: ':' :: rest => (groups 8 [] (some 0) rest).bind expand
  | _ => (groups 8 [] none text).bind expand

/-- An IPv4 address inside the sixteen bytes. -/
def to4 (bytes : List ℕ) : Option (List ℕ) :=
  if bytes.take 12 = [0, 0, 0, 0, 0, 0, 0, 0, 0, 0, 0xFF, 0xFF] then some (bytes.drop 12)
  else none

def bigEndian (octets : List ℕ) : ℕ :=
  octets.foldl (fun n octet => 256 * n + octet) 0

/-- `net.ParseIP(s).To4()`, read as a big-endian number. -/
def parse4 (text : String) : Option ℕ :=
  match text.toList.find? fun c => c = '.' ∨ c = ':' with
  | some '.' => (parseIPv4 text.toList).map bigEndian
  | some ':' => ((parseIPv6 text.toList).bind to4).map bigEndian
  | _ => none

/-! ## Printing -/

def octetChars (n : ℕ) : List Char := Nat.toDigits 10 n

def ipChars (ip : ℕ) : List Char :=
  octetChars (ip / 2 ^ 24 % 256) ++ '.' :: (octetChars (ip / 2 ^ 16 % 256) ++
    '.' :: (octetChars (ip / 2 ^ 8 % 256) ++ '.' :: octetChars (ip % 256)))

/-- `IP.String` of the four bytes of a number below `2 ^ 32`. -/
def ipString (ip : ℕ) : String := String.ofList (ipChars ip)

/-! ## Reading what was printed -/

theorem octetChars_spec : ∀ n < 256,
    (octetChars n).all (isDigitOf 10) = true ∧ octetChars n ≠ [] ∧
      value 10 (octetChars n) = n := by
  decide +kernel

theorem octet_octetChars {n : ℕ} (hn : n < 256) (rest : List Char)
    (hrest : rest = [] ∨ ∃ tail, rest = '.' :: tail) :
    octet (octetChars n ++ rest) = some (n, rest) := by
  have hspec := octetChars_spec n hn
  have hdigits : ∀ c ∈ octetChars n, isDigitOf 10 c = true := by
    simpa using hspec.1
  have hstop : rest.takeWhile (isDigitOf 10) = [] ∧
      rest.dropWhile (isDigitOf 10) = rest := by
    rcases hrest with rfl | ⟨tail, rfl⟩
    · simp
    · have hdot : isDigitOf 10 '.' = false := by decide
      simp [hdot]
  have htake : (octetChars n ++ rest).takeWhile (isDigitOf 10) = octetChars n := by
    rw [List.takeWhile_append_of_pos hdigits, hstop.1, List.append_nil]
  have hdrop : (octetChars n ++ rest).dropWhile (isDigitOf 10) = rest := by
    rw [List.dropWhile_append_of_pos hdigits, hstop.2]
  have hsmall : ¬ (octetChars n = [] ∨ big ≤ n) := by
    rw [not_or]
    refine ⟨hspec.2.1, ?_⟩
    unfold big
    omega
  unfold octet number
  simp only [htake, hdrop, hspec.2.2, if_neg hsmall]
  rw [if_neg (by omega)]

theorem parseIPv4_ipChars (ip : ℕ) :
    parseIPv4 (ipChars ip) =
      some [ip / 2 ^ 24 % 256, ip / 2 ^ 16 % 256, ip / 2 ^ 8 % 256, ip % 256] := by
  unfold parseIPv4 ipChars
  rw [octet_octetChars (Nat.mod_lt _ (by omega)) _ (.inr ⟨_, rfl⟩)]
  simp only [Option.bind_eq_bind, Option.bind_some, dot]
  rw [octet_octetChars (Nat.mod_lt _ (by omega)) _ (.inr ⟨_, rfl⟩)]
  simp only [Option.bind_some]
  rw [octet_octetChars (Nat.mod_lt _ (by omega)) _ (.inr ⟨_, rfl⟩)]
  simp only [Option.bind_some]
  have hlast := octet_octetChars (Nat.mod_lt ip (by omega)) [] (.inl rfl)
  rw [List.append_nil] at hlast
  simp [hlast]

theorem parse4_ipString {ip : ℕ} (hip : ip < 2 ^ 32) :
    parse4 (ipString ip) = some ip := by
  have hfind : (ipChars ip).find? (fun c => decide (c = '.' ∨ c = ':')) = some '.' := by
    have hfirst : ∀ n < 256,
        (octetChars n).find? (fun c => decide (c = '.' ∨ c = ':')) = none := by
      decide +kernel
    unfold ipChars
    rw [List.find?_append, hfirst _ (Nat.mod_lt _ (by omega))]
    rfl
  unfold parse4 ipString
  rw [String.toList_ofList, hfind]
  simp only [parseIPv4_ipChars, Option.map_some, bigEndian, List.foldl_cons, List.foldl_nil]
  congr 1
  omega

end GoNet
end Di
