import BrilIR.Proofs.Printing.Unbroken
import BrilIR.Proofs.Tree.Replacement

/-!
Indentation. An op that is shown further in has the same text with more spaces behind each line end,
only that the closing brace of a module without region stays where it is; and an op stands behind as
many spaces as it is deep in the tree.
-/

namespace BrilIR

/-- The text with `n` spaces behind the line ends that are marked. The marks stand for the line ends
in order. -/
def moved (n : Nat) : List Bool → List Char → List Char
  | _, [] => []
  | marks, c :: cs =>
    if c = '\n' then
      c :: ((if marks.headD false then List.replicate n ' ' else []) ++ moved n marks.tail cs)
    else c :: moved n marks cs

theorem moved_of_notMem {n : Nat} {marks : List Bool} {cs : List Char} (h : '\n' ∉ cs) :
    moved n marks cs = cs := by
  induction cs with
  | nil => simp [moved]
  | cons c cs ih =>
    have hc : c ≠ '\n' := fun e => h (by simp [e])
    have hcs : '\n' ∉ cs := fun hm => h (List.mem_cons_of_mem c hm)
    rw [moved, if_neg hc, ih hcs]

theorem moved_append {n : Nat} {marks more : List Bool} {cs ds : List Char}
    (h : marks.length = cs.count '\n') :
    moved n (marks ++ more) (cs ++ ds) = moved n marks cs ++ moved n more ds := by
  -- a line end takes the first mark, so the marks of `cs` are used up at its end
  induction cs generalizing marks with
  | nil =>
    obtain rfl := List.length_eq_zero_iff.1 h
    simp [moved]
  | cons c cs ih =>
    by_cases hc : c = '\n'
    · subst hc
      cases marks with
      | nil => simp at h
      | cons mark marks =>
        have h : marks.length = cs.count '\n' := by simpa using h
        simp [moved, ih h]
    · rw [List.count_cons_of_ne hc] at h
      simp [moved, hc, ih h]

/-- `t` is `s` with `n` spaces behind the line ends that are marked, and each of them is marked or
not. -/
structure Moves (n : Nat) (marks : List Bool) (s t : String) : Prop where
  length : marks.length = s.toList.count '\n'
  eq : t.toList = moved n marks s.toList

namespace Moves

variable {n : Nat} {marks more : List Bool} {s t u v : String}

theorem append (h : Moves n marks s t) (h' : Moves n more u v) :
    Moves n (marks ++ more) (s ++ u) (t ++ v) := by
  constructor
  · rw [List.length_append, h.length, h'.length, String.toList_append, List.count_append]
  · rw [String.toList_append, String.toList_append, moved_append h.length, h.eq, h'.eq]

theorem unbroken (h : Unbroken s) : Moves n [] s s :=
  ⟨(List.count_eq_zero.2 h).symm, (moved_of_notMem h).symm⟩

theorem feed (k : Nat) : Moves (2 * k) [true] "\n" ("\n" ++ spaces k) :=
  ⟨rfl, by simp [moved, spaces]⟩

theorem stay : Moves n [false] "\n" "\n" :=
  ⟨rfl, by simp [moved]⟩

end Moves

theorem spaces_add (i k : Nat) : spaces ((i + k : Nat) : Int) = spaces k ++ spaces i := by
  rw [spaces, spaces, spaces, ← String.ofList_append, List.replicate_append_replicate]
  simp only [Int.toNat_natCast]
  congr 2
  omega

theorem unbroken_spaces (i : Int) : Unbroken (spaces i) := by
  simp [Unbroken, spaces]

/-- `s` is made of lines, and `t` of the same lines `k` levels further in. The spaces in front of a
line come behind the line end in front of it; taken over `s` as a whole they go from its front to
its end. -/
def MovesLines (k : Nat) (marks : List Bool) (s t : String) : Prop :=
  ∃ u, Moves (2 * k) marks s u ∧ spaces k ++ u = t ++ spaces k

namespace MovesLines

variable {k : Nat} {marks more : List Bool} {s t u v : String}

theorem nil : MovesLines k [] "" "" :=
  ⟨"", .unbroken (by decide), by simp⟩

theorem append (h : MovesLines k marks s t) (h' : MovesLines k more u v) :
    MovesLines k (marks ++ more) (s ++ u) (t ++ v) := by
  obtain ⟨x, hx, e⟩ := h
  obtain ⟨y, hy, e'⟩ := h'
  refine ⟨x ++ y, hx.append hy, ?_⟩
  rw [← String.append_assoc, e, String.append_assoc, e', String.append_assoc]

theorem line (i : Nat) (h : Moves (2 * k) marks s t) :
    MovesLines k (marks ++ [true]) (spaces i ++ s ++ "\n")
      (spaces ((i + k : Nat) : Int) ++ t ++ "\n") := by
  have hfront : Moves (2 * k) [] (spaces i) (spaces i) := .unbroken (unbroken_spaces i)
  refine ⟨_, (hfront.append h).append (.feed k), ?_⟩
  rw [spaces_add]
  simp only [String.append_assoc]

theorem braced (i : Nat) (h : MovesLines k marks s t) :
    Moves (2 * k) (true :: marks) (braced i s) (braced ((i + k : Nat) : Int) t) := by
  obtain ⟨u, hu, e⟩ := h
  have hopen : Moves (2 * k) [] " \x7b" " \x7b" := .unbroken (by decide)
  have hclose : Moves (2 * k) [] (spaces i ++ "\x7d") (spaces i ++ "\x7d") :=
    .unbroken (unbroken_append.2 ⟨unbroken_spaces i, by decide⟩)
  have hmoves := (hopen.append (.feed k)).append (hu.append hclose)
  have hfront : " \x7b\n" = " \x7b" ++ "\n" := rfl
  have hs : " \x7b" ++ "\n" ++ (s ++ (spaces i ++ "\x7d")) = BrilIR.braced i s := by
    rw [BrilIR.braced, hfront]
    simp only [String.append_assoc]
  have ht : " \x7b" ++ ("\n" ++ spaces k) ++ (u ++ (spaces i ++ "\x7d")) =
      BrilIR.braced ((i + k : Nat) : Int) t := by
    calc " \x7b" ++ ("\n" ++ spaces k) ++ (u ++ (spaces i ++ "\x7d"))
        = " \x7b" ++ "\n" ++ (spaces k ++ u) ++ (spaces i ++ "\x7d") := by
          simp only [String.append_assoc]
      _ = " \x7b" ++ "\n" ++ t ++ (spaces k ++ spaces i) ++ "\x7d" := by
          rw [e]
          simp only [String.append_assoc]
      _ = BrilIR.braced ((i + k : Nat) : Int) t := by
          rw [BrilIR.braced, hfront, spaces_add]
  rw [hs, ht, List.append_nil] at hmoves
  exact hmoves

end MovesLines

/-! For each line end in the text of an op, in order, whether the line behind it moves with the op.
Only the closing brace of a module without region does not. -/

mutual

def Op.feeds : Op → List Bool
  | .mk kind _ none => if kind = .moduleOp then [false] else []
  | .mk kind _ (some r) => if kind.showsRegion then true :: Region.feeds r else []

def Region.feeds : List Block → List Bool
  | [] => []
  | .mk label ops :: r => Block.labelFeeds label ++ (Block.feeds ops ++ Region.feeds r)

def Block.feeds : List Op → List Bool
  | [] => []
  | op :: ops => op.feeds ++ [true] ++ Block.feeds ops

def Block.labelFeeds : Option String → List Bool
  | none => []
  | some _ => [true]

end

theorem movesLines_labelLine (i k : Nat) {label : Option String}
    (h : ∀ s ∈ label, Unbroken s) : MovesLines k (Block.labelFeeds label)
      (labelLine ((i + 1 : Nat) : Int) label) (labelLine ((i + k + 1 : Nat) : Int) label) := by
  cases label with
  | none => exact .nil
  | some s =>
    have hs : Unbroken (s ++ ":") := unbroken_append.2 ⟨h s rfl, by decide⟩
    have hline := MovesLines.line (k := k) i (.unbroken hs)
    have hlevel (j : Nat) : labelLine ((j + 1 : Nat) : Int) (some s) =
        spaces j ++ (s ++ ":") ++ "\n" := by
      have hj : ((j + 1 : Nat) : Int) - 1 = (j : Int) := by omega
      simp only [labelLine, hj, String.append_assoc]
      rfl
    rw [hlevel, hlevel]
    exact hline

mutual

theorem Op.moves_textAt (i k : Nat) : (op : Op) → op.Unbroken →
    Moves (2 * k) op.feeds (op.textAt i) (op.textAt ((i + k : Nat) : Int))
  | .mk kind o none, h => by
    simp only [Op.Unbroken] at h
    obtain ⟨hk, ho⟩ := h
    have hhead : Moves (2 * k) [] _ _ := .unbroken (OpKind.unbroken_headText hk ho)
    have hnone : Moves (2 * k) [] "" "" := .unbroken (by decide)
    simp only [Op.textAt, Op.feeds]
    by_cases hm : kind = .moduleOp
    · have hopen : Moves (2 * k) [] " \x7b" " \x7b" := .unbroken (by decide)
      have hclose : Moves (2 * k) [] "\x7d" "\x7d" := .unbroken (by decide)
      rw [if_pos hm, if_pos hm]
      exact hhead.append ((hopen.append .stay).append hclose)
    · rw [if_neg hm, if_neg hm]
      exact hhead.append hnone
  | .mk kind o (some r), h => by
    simp only [Op.Unbroken] at h
    obtain ⟨hk, ho, hr⟩ := h
    have hhead : Moves (2 * k) [] _ _ := .unbroken (OpKind.unbroken_headText hk ho)
    have hnone : Moves (2 * k) [] "" "" := .unbroken (by decide)
    simp only [Op.textAt, Op.feeds]
    by_cases hs : kind.showsRegion = true
    · rw [if_pos hs, if_pos hs, if_pos hs]
      exact hhead.append ((Region.movesLines_blocksText i k r hr).braced i)
    · rw [if_neg hs, if_neg hs, if_neg hs]
      exact hhead.append hnone

theorem Region.movesLines_blocksText (i k : Nat) : (r : List Block) → Region.Unbroken r →
    MovesLines k (Region.feeds r) (Region.blocksText ((i + 1 : Nat) : Int) r)
      (Region.blocksText ((i + k + 1 : Nat) : Int) r)
  | [], _ => .nil
  | .mk label ops :: r, h => by
    simp only [Region.Unbroken] at h
    obtain ⟨hl, ho, hr⟩ := h
    have hops := Block.movesLines_opsText (i + 1) k ops ho
    rw [Nat.add_right_comm] at hops
    have hblock := (movesLines_labelLine i k hl).append
      (hops.append (Region.movesLines_blocksText i k r hr))
    simp only [Region.feeds, Region.blocksText, String.append_assoc]
    exact hblock

theorem Block.movesLines_opsText (i k : Nat) : (ops : List Op) → Block.Unbroken ops →
    MovesLines k (Block.feeds ops) (Block.opsText i ops) (Block.opsText ((i + k : Nat) : Int) ops)
  | [], _ => .nil
  | op :: ops, h => by
    simp only [Block.Unbroken] at h
    exact (MovesLines.line i (Op.moves_textAt i k op h.1)).append
      (Block.movesLines_opsText i k ops h.2)

end

/-! Places in a tree. -/

/-- What stands around an op in the region of the op above it. -/
structure Frame where
  kind : OpKind
  operation : Operation
  above : List Block
  label : Option String
  before : List Op
  after : List Op
  below : List Block

namespace Frame

def fill (f : Frame) (op : Op) : Op :=
  .mk f.kind f.operation (some (f.above ++ .mk f.label (f.before ++ op :: f.after) :: f.below))

def opening (i : Int) (f : Frame) : String :=
  f.kind.headText f.operation ++ " \x7b\n" ++ Region.blocksText (i + 1) f.above

def front (i : Int) (f : Frame) : String :=
  f.opening i ++ labelLine (i + 1) f.label ++ Block.opsText (i + 1) f.before ++ spaces (i + 1)

def back (i : Int) (f : Frame) : String :=
  "\n" ++ Block.opsText (i + 1) f.after ++ Region.blocksText (i + 1) f.below ++ spaces i ++ "\x7d"

def feedsFront (f : Frame) : List Bool :=
  true :: (Region.feeds f.above ++ Block.labelFeeds f.label ++ Block.feeds f.before)

def feedsBack (f : Frame) : List Bool :=
  true :: (Block.feeds f.after ++ Region.feeds f.below)

end Frame

theorem Block.opsText_append (i : Int) (ops more : List Op) :
    opsText i (ops ++ more) = opsText i ops ++ opsText i more := by
  induction ops with
  | nil => simp [opsText]
  | cons op ops ih => simp only [List.cons_append, opsText, ih, String.append_assoc]

theorem Region.blocksText_append (i : Int) (r more : List Block) :
    blocksText i (r ++ more) = blocksText i r ++ blocksText i more := by
  induction r with
  | nil => simp [blocksText]
  | cons b r ih =>
    obtain ⟨label, ops⟩ := b
    simp only [List.cons_append, blocksText, ih, String.append_assoc]

theorem Block.feeds_append (ops more : List Op) :
    feeds (ops ++ more) = feeds ops ++ feeds more := by
  induction ops with
  | nil => simp [feeds]
  | cons op ops ih => simp only [List.cons_append, feeds, ih, List.append_assoc]

theorem Region.feeds_append (r more : List Block) : feeds (r ++ more) = feeds r ++ feeds more := by
  induction r with
  | nil => simp [feeds]
  | cons b r ih =>
    obtain ⟨label, ops⟩ := b
    simp only [List.cons_append, feeds, ih, List.append_assoc]

namespace Frame

variable {f : Frame} {op : Op}

theorem textAt_fill (i : Int) (h : f.kind.showsRegion = true) :
    (f.fill op).textAt i = f.front i ++ op.textAt (i + 1) ++ f.back i := by
  simp only [fill, Op.textAt, if_pos h, braced, Region.blocksText_append, Region.blocksText,
    Block.opsText_append, Block.opsText, front, opening, back, String.append_assoc]

theorem feeds_fill (h : f.kind.showsRegion = true) :
    (f.fill op).feeds = f.feedsFront ++ op.feeds ++ f.feedsBack := by
  simp [fill, Op.feeds, h, Region.feeds_append, Region.feeds, Block.feeds_append, Block.feeds,
    feedsFront, feedsBack]

end Frame

abbrev Place := List Frame

namespace Place

def fill (p : Place) (op : Op) : Op := p.foldr Frame.fill op

/-- An op that a path leads to is in a place as deep as the path is long. -/
theorem exists_of_descend? {op below : Op} {path : List Nat} (h : op.descend? path = some below) :
    ∃ p : Place, p.length = path.length ∧ op = p.fill below := by
  induction path generalizing op with
  | nil =>
    cases h
    exact ⟨[], rfl, rfl⟩
  | cons n path ih =>
    obtain ⟨child, hn, hc⟩ := Op.descend?_cons_iff.1 h
    obtain ⟨p, hlength, rfl⟩ := ih hc
    obtain ⟨kind, o, region⟩ := op
    cases region with
    | none => cases hn
    | some r =>
      obtain ⟨b, hb, hmem⟩ := List.mem_flatMap.1 (List.mem_of_getElem? hn)
      obtain ⟨label, ops⟩ := b
      obtain ⟨above, after, rfl⟩ := List.append_of_mem hb
      obtain ⟨before, behind, rfl⟩ := List.append_of_mem hmem
      exact ⟨⟨kind, o, above, label, before, behind, after⟩ :: p, congrArg (· + 1) hlength, rfl⟩

/-- No op around the place keeps its region to itself. -/
def Shown (p : Place) : Prop := ∀ f ∈ p, f.kind.showsRegion = true

def front (i : Int) : Place → String
  | [] => ""
  | f :: p => f.front i ++ front (i + 1) p

def back (i : Int) : Place → String
  | [] => ""
  | f :: p => back (i + 1) p ++ f.back i

def feedsFront (p : Place) : List Bool := p.flatMap Frame.feedsFront

/-- The op stands in the text at its place, as many levels further in as it is deep. -/
theorem textAt_fill (i : Int) {p : Place} (h : p.Shown) (op : Op) :
    (p.fill op).textAt i = p.front i ++ op.textAt (i + p.length) ++ p.back i := by
  induction p generalizing i with
  | nil => simp [fill, front, back]
  | cons f p ih =>
    obtain ⟨hf, hp⟩ := List.forall_mem_cons.1 h
    have hlevel : i + 1 + (p.length : Int) = i + ((f :: p).length : Int) := by
      rw [List.length_cons]
      omega
    rw [fill, List.foldr_cons, Frame.textAt_fill i hf, ← fill, ih (i + 1) hp, hlevel, front, back]
    simp only [String.append_assoc]

theorem feeds_fill {p : Place} (h : p.Shown) (op : Op) :
    ∃ more, (p.fill op).feeds = p.feedsFront ++ op.feeds ++ more := by
  induction p with
  | nil => exact ⟨[], by simp [fill, feedsFront]⟩
  | cons f p ih =>
    obtain ⟨hf, hp⟩ := List.forall_mem_cons.1 h
    obtain ⟨more, e⟩ := ih hp
    refine ⟨more ++ f.feedsBack, ?_⟩
    rw [fill, List.foldr_cons, Frame.feeds_fill hf, ← fill, e, feedsFront, feedsFront,
      List.flatMap_cons]
    simp only [List.append_assoc]

end Place

theorem Region.unbroken_append {r more : List Block} :
    Region.Unbroken (r ++ more) ↔ Region.Unbroken r ∧ Region.Unbroken more := by
  induction r with
  | nil => simp [Region.Unbroken]
  | cons b r ih =>
    obtain ⟨label, ops⟩ := b
    simp only [List.cons_append, Region.Unbroken, ih, and_assoc]

theorem Block.unbroken_append {ops more : List Op} :
    Block.Unbroken (ops ++ more) ↔ Block.Unbroken ops ∧ Block.Unbroken more := by
  induction ops with
  | nil => simp [Block.Unbroken]
  | cons op ops ih => simp only [List.cons_append, Block.Unbroken, ih, and_assoc]

theorem Op.Unbroken.of_fill {f : Frame} {op : Op} (h : (f.fill op).Unbroken) : op.Unbroken := by
  simp only [Frame.fill, Op.Unbroken, Region.unbroken_append, Region.Unbroken,
    Block.unbroken_append, Block.Unbroken] at h
  exact h.2.2.2.2.1.2.1

theorem Frame.length_feedsFront {f : Frame} {op : Op} (h : (f.fill op).Unbroken) (i : Nat) :
    f.feedsFront.length = (f.front i).toList.count '\n' := by
  simp only [fill, Op.Unbroken, Region.unbroken_append, Region.Unbroken, Block.unbroken_append,
    Block.Unbroken] at h
  obtain ⟨hk, ho, habove, hlabel, ⟨hbefore, -⟩, -⟩ := h
  have hhead : Unbroken (f.kind.headText f.operation ++ " \x7b") :=
    unbroken_append.2 ⟨OpKind.unbroken_headText hk ho, by decide⟩
  have hopen : Moves (2 * 0) [true] (f.kind.headText f.operation ++ " \x7b" ++ "\n") _ :=
    (Moves.unbroken hhead).append (.feed 0)
  obtain ⟨_, hmoves, -⟩ := ((Region.movesLines_blocksText i 0 f.above habove).append
    (movesLines_labelLine i 0 hlabel)).append (Block.movesLines_opsText (i + 1) 0 f.before hbefore)
  have hfront : f.front i = f.kind.headText f.operation ++ " \x7b" ++ "\n" ++
      (Region.blocksText ((i + 1 : Nat) : Int) f.above ++ labelLine ((i + 1 : Nat) : Int) f.label ++
        Block.opsText ((i + 1 : Nat) : Int) f.before) ++ spaces ((i + 1 : Nat) : Int) := by
    have hline : " \x7b\n" = " \x7b" ++ "\n" := rfl
    simp only [front, opening, hline, String.append_assoc]
    rfl
  have hspaces : Moves (2 * 0) [] (spaces ((i + 1 : Nat) : Int)) _ := .unbroken (unbroken_spaces _)
  rw [hfront, ← ((hopen.append hmoves).append hspaces).length, List.append_nil]
  rfl

/-- Each line end that does not move is in a module without region. -/
theorem split_marks {a b marks more : List Bool} (h : a ++ b = marks ++ false :: more) :
    (∃ rest, a = marks ++ false :: rest) ∨
      ∃ rest, marks = a ++ rest ∧ b = rest ++ false :: more := by
  rcases List.append_eq_append_iff.1 h with ⟨rest, e, e'⟩ | ⟨rest, e, e'⟩
  · exact .inr ⟨rest, e, e'⟩
  · cases rest with
    | nil => exact .inr ⟨[], by simpa using e.symm, by simpa using e'.symm⟩
    | cons mark rest =>
      obtain ⟨rfl, -⟩ := List.cons.inj e'
      exact .inl ⟨rest, e⟩

mutual

theorem Op.exists_place_of_feeds : (op : Op) → {marks more : List Bool} →
    op.feeds = marks ++ false :: more → ∃ p o, Place.Shown p ∧
      op = Place.fill p (.mk .moduleOp o none) ∧ Place.feedsFront p = marks
  | .mk kind o none, marks, more, h => by
    simp only [Op.feeds] at h
    split at h
    · next hk =>
      subst hk
      cases marks with
      | nil => exact ⟨[], o, by simp [Place.Shown], rfl, rfl⟩
      | cons mark marks => simp at h
    · simp at h
  | .mk kind o (some r), marks, more, h => by
    simp only [Op.feeds] at h
    split at h
    · next hs =>
      cases marks with
      | nil => cases h
      | cons mark marks =>
        obtain ⟨rfl, hr⟩ := List.cons.inj h
        obtain ⟨above, label, before, op, after, below, p, o', hp, rfl, rfl, e⟩ :=
          Region.exists_place_of_feeds r hr
        refine ⟨⟨kind, o, above, label, before, after, below⟩ :: p, o', ?_, rfl, ?_⟩
        · exact List.forall_mem_cons.2 ⟨hs, hp⟩
        · simp [← e, Place.feedsFront, Frame.feedsFront]
    · simp at h

theorem Region.exists_place_of_feeds : (r : List Block) → {marks more : List Bool} →
    Region.feeds r = marks ++ false :: more → ∃ above label before op after below p o,
      Place.Shown p ∧ op = Place.fill p (.mk .moduleOp o none) ∧
      r = above ++ .mk label (before ++ op :: after) :: below ∧
      Region.feeds above ++ (Block.labelFeeds label ++ (Block.feeds before ++
        Place.feedsFront p)) = marks
  | [], marks, more, h => by simp [Region.feeds] at h
  | .mk label ops :: r, marks, more, h => by
    simp only [Region.feeds] at h
    -- the line end is not that of the label, but in this block or in one below
    have hlabel {rest : List Bool} : Block.labelFeeds label ≠ marks ++ false :: rest := by
      intro e
      have hm : false ∈ Block.labelFeeds label := by simp [e]
      cases label <;> simp [Block.labelFeeds] at hm
    rcases split_marks h with ⟨_, e⟩ | ⟨m, rfl, h'⟩
    · exact absurd e hlabel
    · rcases split_marks h' with ⟨_, hops⟩ | ⟨m', rfl, hr⟩
      · obtain ⟨before, op, after, p, o, hp, ho, rfl, rfl⟩ := Block.exists_place_of_feeds ops hops
        exact ⟨[], label, before, op, after, r, p, o, hp, ho, rfl, by simp [Region.feeds]⟩
      · obtain ⟨above, label', before, op, after, below, p, o, hp, ho, rfl, rfl⟩ :=
          Region.exists_place_of_feeds r hr
        exact ⟨.mk label ops :: above, label', before, op, after, below, p, o, hp, ho, rfl,
          by simp [Region.feeds]⟩

theorem Block.exists_place_of_feeds : (ops : List Op) → {marks more : List Bool} →
    Block.feeds ops = marks ++ false :: more → ∃ before op after p o, Place.Shown p ∧
      op = Place.fill p (.mk .moduleOp o none) ∧ ops = before ++ op :: after ∧
      Block.feeds before ++ Place.feedsFront p = marks
  | [], marks, more, h => by simp [Block.feeds] at h
  | op :: ops, marks, more, h => by
    simp only [Block.feeds] at h
    rcases split_marks h with ⟨_, h'⟩ | ⟨m, rfl, hops⟩
    · rcases split_marks h' with ⟨_, hop⟩ | ⟨m, -, hlast⟩
      · obtain ⟨p, o, hp, ho, rfl⟩ := Op.exists_place_of_feeds op hop
        exact ⟨[], op, ops, p, o, hp, ho, rfl, rfl⟩
      · have hm : false ∈ [true] := by simp [hlast]
        simp at hm
    · obtain ⟨before, op', after, p, o, hp, ho, rfl, rfl⟩ := Block.exists_place_of_feeds ops hops
      exact ⟨op :: before, op', after, p, o, hp, ho, rfl, by simp [Block.feeds]⟩

end

/-! Lines. -/

def Lines (s : String) : Prop := s = "" ∨ ∃ t, s = t ++ "\n"

theorem Lines.append {s t : String} (hs : Lines s) (ht : Lines t) : Lines (s ++ t) := by
  rcases ht with rfl | ⟨u, rfl⟩
  · simpa using hs
  · exact .inr ⟨s ++ u, String.append_assoc.symm⟩

theorem Lines.behind {s t : String} (ht : Lines t) : ∃ u, s ++ "\n" ++ t = u ++ "\n" := by
  rcases ht with rfl | ⟨u, rfl⟩
  · exact ⟨s, by simp⟩
  · exact ⟨s ++ "\n" ++ u, String.append_assoc.symm⟩

theorem lines_labelLine (i : Int) (label : Option String) : Lines (labelLine i label) := by
  cases label with
  | none => exact .inl rfl
  | some s =>
    have hend : ":\n" = ":" ++ "\n" := rfl
    exact .inr ⟨spaces (i - 1) ++ s ++ ":", by simp only [labelLine, hend, String.append_assoc]⟩

theorem Block.lines_opsText (i : Int) (ops : List Op) : Lines (opsText i ops) := by
  induction ops with
  | nil => exact .inl rfl
  | cons op ops ih => exact .append (.inr ⟨spaces i ++ op.textAt i, rfl⟩) ih

theorem Region.lines_blocksText (i : Int) (r : List Block) : Lines (blocksText i r) := by
  induction r with
  | nil => exact .inl rfl
  | cons b r ih =>
    obtain ⟨label, ops⟩ := b
    exact ((lines_labelLine i label).append (Block.lines_opsText i ops)).append ih

theorem Frame.exists_opening (f : Frame) (i : Int) : ∃ s, f.opening i = s ++ "\n" := by
  obtain ⟨s, e⟩ := (Region.lines_blocksText (i + 1) f.above).behind
    (s := f.kind.headText f.operation ++ " \x7b")
  refine ⟨s, ?_⟩
  have hend : " \x7b\n" = " \x7b" ++ "\n" := rfl
  rw [← e, opening, hend]
  simp only [String.append_assoc]

namespace Place

theorem front_concat (i : Int) (p : Place) (f : Frame) :
    front i (p ++ [f]) = front i p ++ f.front (i + p.length) := by
  induction p generalizing i with
  | nil => simp [front]
  | cons g p ih =>
    have hlevel : i + 1 + (p.length : Int) = i + ((g :: p).length : Int) := by
      rw [List.length_cons]
      omega
    rw [List.cons_append, front, ih, hlevel, front, String.append_assoc]

theorem exists_front_label (p : Place) (f : Frame) : ∃ s,
    front 0 (p ++ [f]) = s ++ "\n" ++ labelLine (p.length + 1) f.label ++
      Block.opsText (p.length + 1) f.before ++ spaces (p.length + 1) := by
  obtain ⟨s, e⟩ := f.exists_opening p.length
  refine ⟨front 0 p ++ s, ?_⟩
  rw [front_concat, Int.zero_add, Frame.front, e]
  simp only [String.append_assoc]

theorem exists_front (p : Place) (f : Frame) : ∃ s,
    front 0 (p ++ [f]) = s ++ "\n" ++ spaces (p.length + 1) := by
  obtain ⟨s, e⟩ := exists_front_label p f
  obtain ⟨t, e'⟩ := ((lines_labelLine (p.length + 1) f.label).append
    (Block.lines_opsText (p.length + 1) f.before)).behind (s := s)
  refine ⟨t, ?_⟩
  rw [e, ← e']
  simp only [String.append_assoc]

theorem length_feedsFront {p : Place} {op : Op} (h : (p.fill op).Unbroken) (i : Nat) :
    p.feedsFront.length = (p.front i).toList.count '\n' := by
  induction p generalizing i with
  | nil => rfl
  | cons f p ih =>
    have hf : (f.fill (fill p op)).Unbroken := h
    have hp : (fill p op).Unbroken := hf.of_fill
    rw [feedsFront, List.flatMap_cons, List.length_append, Frame.length_feedsFront hf i, front,
      String.toList_append, List.count_append]
    exact congrArg _ (ih hp (i + 1))

end Place

/-- Indentation is uniform. Further in, an op has the same text with two spaces for each level
behind each line end, except behind the one in a module without region. And in the text of an op
each op below it stands behind a line end and two spaces for each level that it is deep, and the
label of its block behind a line end and the spaces of one level less. -/
theorem Op.textAt_indentation {op : Op} (h : op.Unbroken) :
    (op.feeds.length = op.text.toList.count '\n' ∧
      ∀ k : Nat, (op.textAt k).toList = moved (2 * k) op.feeds op.text.toList) ∧
    (∀ j, op.feeds[j]? = some false ↔ ∃ (p : Place) (o : Operation), p.Shown ∧
      op = p.fill (.mk .moduleOp o none) ∧ j = (p.front 0).toList.count '\n') ∧
    ∀ (p : Place) (f : Frame) (below : Op), Place.Shown (p ++ [f]) →
      op = Place.fill (p ++ [f]) below →
        (op.text = Place.front 0 (p ++ [f]) ++ below.textAt (p.length + 1) ++
          Place.back 0 (p ++ [f])) ∧
        (∃ s, Place.front 0 (p ++ [f]) = s ++ "\n" ++ spaces (p.length + 1)) ∧
        ∀ label, f.label = some label → ∃ s, Place.front 0 (p ++ [f]) =
          s ++ "\n" ++ spaces p.length ++ label ++ ":\n" ++
            Block.opsText (p.length + 1) f.before ++ spaces (p.length + 1) := by
  refine ⟨⟨(op.moves_textAt 0 0 h).length, fun k => ?_⟩, fun j => ⟨fun hj => ?_, ?_⟩,
    fun p f below hp e => ⟨?_, p.exists_front f, fun label hlabel => ?_⟩⟩
  · have hmoves := (op.moves_textAt 0 k h).eq
    rw [Nat.zero_add] at hmoves
    exact hmoves
  · obtain ⟨hlt, hget⟩ := List.getElem?_eq_some_iff.1 hj
    -- the marks in front of this one are those of the text in front of the module
    have hsplit : op.feeds = op.feeds.take j ++ false :: op.feeds.drop (j + 1) := by
      rw [← hget, List.getElem_cons_drop, List.take_append_drop]
    obtain ⟨p, o, hp, rfl, e⟩ := Op.exists_place_of_feeds op hsplit
    refine ⟨p, o, hp, rfl, ?_⟩
    have hlength := Place.length_feedsFront h 0
    rw [e, List.length_take, Nat.min_eq_left (Nat.le_of_lt hlt)] at hlength
    exact hlength
  · intro given
    obtain ⟨p, o, hp, rfl, rfl⟩ := given
    have hlength := Place.length_feedsFront h 0
    obtain ⟨more, e⟩ := Place.feeds_fill hp (.mk .moduleOp o none)
    have hbare : (Op.mk .moduleOp o none).feeds = [false] := by simp [Op.feeds]
    have hlength : p.feedsFront.length = (p.front 0).toList.count '\n' := hlength
    rw [e, hbare, ← hlength, List.append_assoc, List.getElem?_append_right (Nat.le_refl _),
      Nat.sub_self]
    rfl
  · have htext := Place.textAt_fill 0 hp below
    rw [Int.zero_add, List.length_append, List.length_singleton, ← e] at htext
    exact htext
  · obtain ⟨s, hs⟩ := p.exists_front_label f
    have hlevel : ((p.length : Int) + 1) - 1 = p.length := Int.add_sub_cancel _ _
    refine ⟨s, ?_⟩
    rw [hs, hlabel, labelLine, hlevel]
    simp only [String.append_assoc]

def labelledPlace : Frame where
  kind := .moduleOp
  operation := {}
  above := []
  label := some "^a"
  before := []
  after := []
  below := []

/-- The brace of the module inside stays where it is. -/
theorem textAt_indentation_labelledPlace :
    let op := labelledPlace.fill (.mk .moduleOp {} none)
    op.Unbroken ∧ op.text = "module \x7b\n^a:\n  module \x7b\n\x7d\n\x7d" ∧
      op.textAt 1 = "module \x7b\n  ^a:\n    module \x7b\n\x7d\n  \x7d" ∧
      (op.textAt 1).toList = moved 2 [true, true, false, true] op.text.toList ∧
      op.feeds[2]? = some false ∧
      ∃ s, Place.front 0 [labelledPlace] =
        s ++ "\n" ++ spaces 0 ++ "^a" ++ ":\n" ++ Block.opsText 1 [] ++ spaces 1 := by
  intro op
  have ho : Operation.Unbroken {} :=
    ⟨by decide, by simp, by simp, by simp, List.forall_mem_nil _, by simp⟩
  have h : op.Unbroken := by
    simp +decide [op, labelledPlace, Frame.fill, Op.Unbroken, Region.Unbroken, Block.Unbroken,
      OpKind.Unbroken, ho]
  have hfeeds : op.feeds = [true, true, false, true] := by
    simp [op, labelledPlace, Frame.fill, Op.feeds, Region.feeds, Block.feeds, Block.labelFeeds,
      OpKind.showsRegion]
  obtain ⟨⟨-, hmoved⟩, hstay, hplaced⟩ := Op.textAt_indentation h
  have hshown : Place.Shown [labelledPlace] := by
    simp [Place.Shown, labelledPlace, OpKind.showsRegion]
  have hmoved₁ := hmoved 1
  rw [hfeeds] at hmoved₁
  refine ⟨h, by decide +kernel, by decide +kernel, hmoved₁, (hstay 2).2 ?_, ?_⟩
  · exact ⟨[labelledPlace], {}, hshown, rfl, by decide +kernel⟩
  · exact (hplaced [] labelledPlace _ hshown rfl).2.2 "^a" rfl

end BrilIR
