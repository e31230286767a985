/-!
# Random numbers

A seed stands for a sequence of random words: the key stream of the ChaCha cipher with twelve
rounds, a block counter that begins at zero, and a key that a congruential generator makes out of
the seed. Numbers of other kinds are drawn from the sequence:

* a fraction takes the upper 53 bits of a word of 64;
* a number below a bound is the upper half of a product of a word with the bound, where words whose
  lower halves would favour some results are passed over;
* an event of some chance happens if a word of 64 bits lies below that share of all words; a certain
  event takes no word.
-/

namespace JitBroker

/-- A row of the state of the cipher. -/
structure CipherRow where
  /-- The first word. -/
  w0 : UInt32
  /-- The second word. -/
  w1 : UInt32
  /-- The third word. -/
  w2 : UInt32
  /-- The fourth word. -/
  w3 : UInt32
  deriving Repr, DecidableEq, Inhabited

namespace CipherRow

/-- Combines two rows word by word. -/
def zip (f : UInt32 → UInt32 → UInt32) (a b : CipherRow) : CipherRow :=
  ⟨f a.w0 b.w0, f a.w1 b.w1, f a.w2 b.w2, f a.w3 b.w3⟩

/-- The sums of the words of two rows. -/
def add : CipherRow → CipherRow → CipherRow := zip (· + ·)

/-- A word with its bits turned to the left. -/
def turnWord (n x : UInt32) : UInt32 := (x <<< n) ||| (x >>> (32 - n))

/-- The differences of the bits of two rows, turned to the left. -/
def mix (n : UInt32) : CipherRow → CipherRow → CipherRow := zip fun x y => turnWord n (x ^^^ y)

/-- The row with its words moved to the left in a circle. -/
def shift (a : CipherRow) : CipherRow := ⟨a.w1, a.w2, a.w3, a.w0⟩

/-- The words in order. -/
def toList (a : CipherRow) : List UInt32 := [a.w0, a.w1, a.w2, a.w3]

end CipherRow

/-- The state of the cipher. -/
structure CipherState where
  /-- The first row. -/
  a : CipherRow
  /-- The second row. -/
  b : CipherRow
  /-- The third row. -/
  c : CipherRow
  /-- The fourth row. -/
  d : CipherRow
  deriving Repr, DecidableEq, Inhabited

namespace CipherState

/-- A round on the columns. -/
def columns (s : CipherState) : CipherState :=
  let a := s.a.add s.b
  let d := s.d.mix 16 a
  let c := s.c.add d
  let b := s.b.mix 12 c
  let a := a.add b
  let d := d.mix 8 a
  let c := c.add d
  ⟨a, b.mix 7 c, c, d⟩

/-- The state with its diagonals made columns. -/
def slant (s : CipherState) : CipherState :=
  ⟨s.a, s.b.shift, s.c.shift.shift, s.d.shift.shift.shift⟩

/-- The state with its columns made diagonals again. -/
def straighten (s : CipherState) : CipherState :=
  ⟨s.a, s.b.shift.shift.shift, s.c.shift.shift, s.d.shift⟩

/-- Rounds on columns and on diagonals in turn. -/
def rounds : Nat → CipherState → CipherState
  | 0, s => s
  | n + 1, s => rounds n s.columns.slant.columns.straighten

/-- The words of the block that begins with a state. -/
def block (s : CipherState) : List UInt32 :=
  let t := rounds 6 s
  (s.a.add t.a).toList ++ (s.b.add t.b).toList ++ (s.c.add t.c).toList ++ (s.d.add t.d).toList

end CipherState

/-- A sequence of random words. -/
structure RandomWords where
  /-- The first half of the key. -/
  key : CipherRow
  /-- The second half of the key. -/
  moreKey : CipherRow
  /-- The number of the next block. -/
  counter : UInt64 := 0
  /-- The words of the last block that are left. -/
  ready : List UInt32 := []
  deriving Repr, Inhabited

namespace RandomWords

/-- A step of the generator that makes keys. -/
def advance (x : UInt64) : UInt64 := x * 6364136223846793005 + 11634580027462260723

/-- The word that the generator shows. -/
def show32 (x : UInt64) : UInt32 :=
  let mixed := (((x >>> 18) ^^^ x) >>> 27).toUInt32
  let turn := (x >>> 59).toUInt32
  (mixed >>> turn) ||| (mixed <<< ((32 - turn) % 32))

/-- The next words that the generator shows. -/
def keyWords : Nat → UInt64 → List UInt32
  | 0, _ => []
  | n + 1, x => show32 (advance x) :: keyWords n (advance x)

/-- Four words as a row. -/
def row : List UInt32 → CipherRow
  | [w0, w1, w2, w3] => ⟨w0, w1, w2, w3⟩
  | _ => default

/-- The sequence that a seed stands for. -/
def ofSeed (seed : UInt64) : RandomWords :=
  let ws := keyWords 8 seed
  { key := row (ws.take 4), moreKey := row (ws.drop 4) }

/-- The state that the next block begins with. -/
def blockState (r : RandomWords) : CipherState where
  a := ⟨0x61707865, 0x3320646e, 0x79622d32, 0x6b206574⟩
  b := r.key
  c := r.moreKey
  d := ⟨r.counter.toUInt32, (r.counter >>> 32).toUInt32, 0, 0⟩

/-- Draws a word of 32 bits. -/
def word (r : RandomWords) : UInt32 × RandomWords :=
  match r.ready with
  | w :: rest => (w, { r with ready := rest })
  | [] =>
    let ws := r.blockState.block
    (ws.headD 0, { r with counter := r.counter + 1, ready := ws.drop 1 })

/-- Draws a word of 64 bits, its lower half first. -/
def longWord (r : RandomWords) : UInt64 × RandomWords :=
  let (low, r) := r.word
  let (high, r) := r.word
  ((high.toUInt64 <<< 32) ||| low.toUInt64, r)

/-- Draws a fraction: at least zero, and less than one. -/
def fraction (r : RandomWords) : Float × RandomWords :=
  let (w, r) := r.longWord
  ((w >>> 11).toFloat / 9007199254740992.0, r)

/-- The greatest lower half of a product that is not passed over. -/
def zone (bound : Nat) : Nat := bound * Nat.pow 2 (31 - bound.log2) - 1

/-- Draws a number below a bound; `tries` bounds how many words are passed over. -/
def below (bound : Nat) : Nat → RandomWords → Nat × RandomWords
  | 0, r => (0, r)
  | tries + 1, r =>
    let (w, r) := r.word
    let product := w.toNat * bound
    if product % UInt32.size ≤ zone bound then (product / UInt32.size, r) else below bound tries r

/-- Draws a number from `low` to `high - 1`. -/
def between (low high : Nat) (r : RandomWords) : Nat × RandomWords :=
  let (n, r) := below (high - low) 64 r
  (low + n, r)

/-- Draws whether an event of the given chance happens. -/
def chance (p : Float) (r : RandomWords) : Bool × RandomWords :=
  if p == 1.0 then (true, r)
  else
    let (w, r) := r.longWord
    (decide (w < (p * 18446744073709551616.0).toUInt64), r)

end RandomWords

end JitBroker
