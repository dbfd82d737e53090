import NetRuleRouter.Utf8

/-!
# SHA-256 and HMAC-SHA256

The hash of a list of bytes and its keyed form. Words are naturals, taken
modulo `2 ^ 32` where a sum is kept, and every round computes its words before
the next one uses them, so that the kernel can run it.
-/

set_option autoImplicit false

namespace NetRuleRouter.Sha256
open Utf8

def roundConstants : List ℕ := [
  0x428a2f98, 0x71374491, 0xb5c0fbcf, 0xe9b5dba5, 0x3956c25b, 0x59f111f1, 0x923f82a4, 0xab1c5ed5,
  0xd807aa98, 0x12835b01, 0x243185be, 0x550c7dc3, 0x72be5d74, 0x80deb1fe, 0x9bdc06a7, 0xc19bf174,
  0xe49b69c1, 0xefbe4786, 0x0fc19dc6, 0x240ca1cc, 0x2de92c6f, 0x4a7484aa, 0x5cb0a9dc, 0x76f988da,
  0x983e5152, 0xa831c66d, 0xb00327c8, 0xbf597fc7, 0xc6e00bf3, 0xd5a79147, 0x06ca6351, 0x14292967,
  0x27b70a85, 0x2e1b2138, 0x4d2c6dfc, 0x53380d13, 0x650a7354, 0x766a0abb, 0x81c2c92e, 0x92722c85,
  0xa2bfe8a1, 0xa81a664b, 0xc24b8b70, 0xc76c51a3, 0xd192e819, 0xd6990624, 0xf40e3585, 0x106aa070,
  0x19a4c116, 0x1e376c08, 0x2748774c, 0x34b0bcb5, 0x391c0cb3, 0x4ed8aa4a, 0x5b9cca4f, 0x682e6ff3,
  0x748f82ee, 0x78a5636f, 0x84c87814, 0x8cc70208, 0x90befffa, 0xa4506ceb, 0xbef9a3f7, 0xc67178f2]

def initialHash : List ℕ := [
  0x6a09e667, 0xbb67ae85, 0x3c6ef372, 0xa54ff53a, 0x510e527f, 0x9b05688c, 0x1f83d9ab, 0x5be0cd19]

def rotr (x n : ℕ) : ℕ := (x >>> n ||| x <<< (32 - n)) % 2 ^ 32

/-- `k n`, with `n` computed first. -/
def force {α : Type} (n : ℕ) (k : ℕ → α) : α := bif n == 0 then k 0 else k n

/-- The message schedule of a block, the newest word first. -/
def schedule : ℕ → List ℕ → List ℕ
  | 0, ws => ws
  | n + 1, ws =>
    let x := ws.getD 14 0
    let y := ws.getD 1 0
    force ((ws.getD 15 0 + (rotr x 7 ^^^ rotr x 18 ^^^ x >>> 3) + ws.getD 6 0 +
      (rotr y 17 ^^^ rotr y 19 ^^^ y >>> 10)) % 2 ^ 32) fun w => schedule n (w :: ws)

def rounds : List (ℕ × ℕ) → ℕ → ℕ → ℕ → ℕ → ℕ → ℕ → ℕ → ℕ → List ℕ
  | [], a, b, c, d, e, f, g, h => [a, b, c, d, e, f, g, h]
  | (k, w) :: rest, a, b, c, d, e, f, g, h =>
    force (h + (rotr e 6 ^^^ rotr e 11 ^^^ rotr e 25) +
        (e &&& f ^^^ (2 ^ 32 - 1 - e) &&& g) + k + w) fun t =>
      force ((t + (rotr a 2 ^^^ rotr a 13 ^^^ rotr a 22) +
          (a &&& b ^^^ a &&& c ^^^ b &&& c)) % 2 ^ 32) fun a' =>
        force ((d + t) % 2 ^ 32) fun e' => rounds rest a' a b c e' e f g

def compress (hash block : List ℕ) : List ℕ :=
  match hash with
  | [a, b, c, d, e, f, g, h] =>
    List.zipWith (fun x y => (x + y) % 2 ^ 32) hash
      (rounds (roundConstants.zip (schedule 48 block.reverse).reverse) a b c d e f g h)
  | _ => hash

def compressAll : ℕ → List ℕ → List ℕ → List ℕ
  | 0, _, hash => hash
  | n + 1, words, hash => compressAll n (words.drop 16) (compress hash (words.take 16))

def wordsOf : Bytes → List ℕ
  | a :: b :: c :: d :: rest =>
    (((a.toNat * 256 + b.toNat) * 256 + c.toNat) * 256 + d.toNat) :: wordsOf rest
  | _ => []

/-- The last `n` bytes of a number, the most significant first. -/
def bytesOf (n w : ℕ) : Bytes := (List.range n).map fun i => UInt8.ofNat (w >>> (8 * (n - 1 - i)))

def pad (data : Bytes) : Bytes :=
  data ++ 0x80 :: (List.replicate ((119 - data.length % 64) % 64) 0 ++ bytesOf 8 (8 * data.length))

def sha256 (data : Bytes) : Bytes :=
  let words := wordsOf (pad data)
  (compressAll (words.length / 16) words initialHash).flatMap (bytesOf 4)

def hmac (key data : Bytes) : Bytes :=
  let short := if 64 < key.length then sha256 key else key
  let block := short ++ List.replicate (64 - short.length) 0
  sha256 (block.map (· ^^^ 0x5c) ++ sha256 (block.map (· ^^^ 0x36) ++ data))

theorem force_eq {α : Type} (n : ℕ) (k : ℕ → α) : force n k = k n := by
  cases n <;> rfl

theorem rounds_length (kws : List (ℕ × ℕ)) (a b c d e f g h : ℕ) :
    (rounds kws a b c d e f g h).length = 8 := by
  induction kws generalizing a b c d e f g h with
  | nil => rfl
  | cons kw kws ih => simp only [rounds, force_eq, ih]

theorem compress_length (hash block : List ℕ) : (compress hash block).length = hash.length := by
  unfold compress
  split
  · rw [List.length_zipWith, rounds_length]
    rfl
  · rfl

theorem compress_all_length (n : ℕ) (words hash : List ℕ) :
    (compressAll n words hash).length = hash.length := by
  induction n generalizing words hash with
  | zero => rfl
  | succ n ih => rw [compressAll, ih, compress_length]

theorem sha256_length (data : Bytes) : (sha256 data).length = 32 := by
  have hword (w : ℕ) : (bytesOf 4 w).length = 4 := by simp [bytesOf]
  simp only [sha256, List.length_flatMap, hword, List.map_const', List.sum_replicate,
    compress_all_length]
  rfl

example : bytesOf 32 0xba7816bf8f01cfea414140de5dae2223b00361a396177a9cb410ff61f20015ad =
    sha256 (encode "abc".toList) := by decide +kernel

end NetRuleRouter.Sha256
