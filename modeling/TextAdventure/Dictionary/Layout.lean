import TextAdventure.Dictionary

/-! # Layouts

How the entries of a map are spread over blocks. A leaf is a run of entries; a branch is a row of blocks
with one entry between neighbours. A block is marked by the write that made it, and has no mark while
nothing holds the map yet. A write makes the blocks on the way to its entry anew and keeps all others,
so maps that come from one another share blocks. Maps are compared from left to right, and the entries
of a block that both share are not looked at.
-/
namespace TextAdventure

inductive Layout where
  | leaf (mark : Option Nat) (entries : Nat)
  | branch (mark : Option Nat) (blocks : List Layout)

namespace Layout

def capacity : Nat := 64

def empty : Layout :=
  leaf none 0

def mark : Layout → Option Nat
  | leaf mark _ => mark
  | branch mark _ => mark

mutual

def size : Layout → Nat
  | leaf _ n => n
  | branch _ blocks => rowSize blocks

def rowSize : List Layout → Nat
  | [] => 0
  | [b] => size b
  | b :: c :: blocks => size b + 1 + rowSize (c :: blocks)

end

mutual

def withMark (mark : Nat) : Layout → Layout
  | leaf _ n => leaf mark n
  | branch _ blocks => branch mark (rowWithMark mark blocks)

def rowWithMark (mark : Nat) : List Layout → List Layout
  | [] => []
  | b :: blocks => withMark mark b :: rowWithMark mark blocks

end

@[simp] theorem mark_withMark (mark : Nat) (l : Layout) : (l.withMark mark).mark = some mark := by
  cases l <;> simp [withMark, Layout.mark]

mutual

def replaceAt (mark : Option Nat) (i : Nat) : Layout → Layout
  | leaf _ n => leaf mark n
  | branch _ blocks => branch mark (rowReplaceAt mark i blocks)

def rowReplaceAt (mark : Option Nat) (i : Nat) : List Layout → List Layout
  | [] => []
  | b :: blocks =>
    if i < b.size then replaceAt mark i b :: blocks
    else if i = b.size then b :: blocks
    else b :: rowReplaceAt mark (i - b.size - 1) blocks

end

mutual

/-- Inserts an entry before a position. A block without room for it becomes two halves of a row. -/
def insertAt (mark : Option Nat) (i : Nat) : Layout → List Layout
  | leaf _ n =>
    if n < capacity then [leaf mark (n + 1)] else [leaf mark (n / 2), leaf mark (n - n / 2)]
  | branch _ blocks =>
    let row := rowInsertAt mark i blocks
    if row.length ≤ capacity + 1 then [branch mark row]
    else
      let (left, right) := row.splitAt (row.length / 2)
      [branch mark left, branch mark right]

def rowInsertAt (mark : Option Nat) (i : Nat) : List Layout → List Layout
  | [] => []
  | b :: blocks =>
    if i ≤ b.size then insertAt mark i b ++ blocks
    else b :: rowInsertAt mark (i - b.size - 1) blocks

end

/-- The layout after the value of a key is written to a dictionary with the layout `l`. -/
def write {α : Type u} (mark : Option Nat) (key : String) (d : Dictionary α) (l : Layout) : Layout :=
  let i := Dictionary.rank key d
  if Dictionary.contains key d then l.replaceAt mark i
  else
    match l.insertAt mark i with
    | [b] => b
    | row => branch mark row

/-- The layout after a value is written for one key after the other, starting from nothing. -/
def ofKeys (keys : List String) : Layout :=
  (keys.foldl
    (fun (l, written) key => (l.write none key written, Dictionary.insert key () written))
    (empty, [])).1

/-- Whether two blocks that start at the same entry are one block. -/
def isShared (a b : Layout) : Bool :=
  a.mark.isSome && a.mark == b.mark && a.size == b.size

inductive Piece where
  | entry
  | block (b : Layout)

def pieces : Layout → List Piece
  | leaf _ n => List.replicate n .entry
  | branch _ blocks => (blocks.map .block).intersperse .entry

/-- How many entries come before the first that a block has of its own. -/
def lead : Layout → Nat
  | branch _ (b :: _) => b.size
  | _ => 0

mutual

/-- A bound on the steps that it takes to come to every entry. -/
def weight : Layout → Nat
  | leaf _ n => n + 1
  | branch _ blocks => rowWeight blocks + 1

def rowWeight : List Layout → Nat
  | [] => 0
  | b :: blocks => weight b + 1 + rowWeight blocks

end

def Piece.weight : Piece → Nat
  | entry => 1
  | block b => b.weight

def totalWeight : List Piece → Nat
  | [] => 0
  | p :: pieces => p.weight + totalWeight pieces

theorem totalWeight_append (ps qs : List Piece) :
    totalWeight (ps ++ qs) = totalWeight ps + totalWeight qs := by
  induction ps with
  | nil => simp [totalWeight]
  | cons p ps ih => simp [totalWeight, ih, Nat.add_assoc]

theorem totalWeight_replicate (n : Nat) : totalWeight (List.replicate n .entry) = n := by
  induction n with
  | zero => rfl
  | succ n ih => simp [List.replicate_succ, totalWeight, ih, Piece.weight, Nat.add_comm]

theorem totalWeight_row (blocks : List Layout) :
    totalWeight ((blocks.map .block).intersperse .entry) ≤ rowWeight blocks := by
  induction blocks with
  | nil => simp [totalWeight]
  | cons b blocks ih =>
    cases blocks with
    | nil => simp [totalWeight, rowWeight, Piece.weight]
    | cons c blocks =>
      simp only [List.map_cons, List.intersperse_cons_cons, totalWeight, rowWeight, Piece.weight] at ih ⊢
      omega

theorem totalWeight_pieces (b : Layout) : totalWeight b.pieces < b.weight := by
  cases b with
  | leaf mark n => simp [pieces, totalWeight_replicate, weight]
  | branch mark blocks =>
    simp only [pieces, weight]
    exact Nat.lt_succ_of_le (totalWeight_row blocks)

/-- For each entry whether it lies in a block that both sides come to at the same time. Of two other
blocks the one whose own entries start earlier is opened, or both. -/
def sharedPieces : List Piece → List Piece → List Bool
  | [], _ => []
  | _, [] => []
  | .entry :: ps, .entry :: qs => false :: sharedPieces ps qs
  | .block a :: ps, .entry :: qs => sharedPieces (a.pieces ++ ps) (.entry :: qs)
  | .entry :: ps, .block b :: qs => sharedPieces (.entry :: ps) (b.pieces ++ qs)
  | .block a :: ps, .block b :: qs =>
    if a.isShared b then List.replicate a.size true ++ sharedPieces ps qs
    else if a.lead < b.lead then sharedPieces (a.pieces ++ ps) (.block b :: qs)
    else if b.lead < a.lead then sharedPieces (.block a :: ps) (b.pieces ++ qs)
    else sharedPieces (a.pieces ++ ps) (b.pieces ++ qs)
termination_by ps qs => totalWeight ps + totalWeight qs
decreasing_by
  all_goals simp only [totalWeight_append, totalWeight, Piece.weight]
  all_goals have := totalWeight_pieces
  all_goals grind

/-- For each entry of two equally large maps whether it lies in a block that they share. -/
def shared (a b : Layout) : List Bool :=
  sharedPieces [.block a] [.block b]

theorem shared_self {l : Layout} (h : l.mark.isSome) : l.shared l = List.replicate l.size true := by
  have hl : l.isShared l = true := by simp [isShared, h]
  simp [shared, sharedPieces, hl]

end Layout

end TextAdventure
