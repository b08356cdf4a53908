import Mathlib.Data.List.Forall2
import BrilIR.Proofs.Text.Trimming

/-!
Outputs that contain what is expected. Looking for each expected line below the one found before,
and taking the first line that has it, finds all of them whenever there is a way to find them at
all, and otherwise stops at the first line up to which there is none.
-/

namespace BrilIR.Text

open List (SublistForall₂)

def Asked (expected : List (List Char)) (i : Nat) : Prop :=
  ∃ l, expected[i]? = some l ∧ trim l ≠ []

/-- Each line of `expected` that is asked for stands, trimmed, in the line of `actual` whose number
`place` gives. Later ones stand further down. -/
structure Found (actual expected : List (List Char)) (place : Nat → Nat) : Prop where
  increasing : ∀ {i j}, Asked expected i → Asked expected j → i < j → place i < place j
  contains : ∀ {i l}, expected[i]? = some l → trim l ≠ [] →
    ∃ a, actual[place i]? = some a ∧ trim l <:+: a

/-- The lines of `actual`, up to white space at their ends, are lines of `more` in the same
order. -/
def LinesAmong (actual more : List Char) : Prop :=
  ((lines actual).map trim).Sublist ((lines more).map trim)

variable {actual expected below : List (List Char)} {l a part : List Char}
  {ps : List (List Char)} {place : Nat → Nat} {i n m : Nat}

/-! Ways to find lines, by their numbers or as a relation of the lists. -/

theorem asked_succ : Asked (l :: expected) (i + 1) ↔ Asked expected i := Iff.rfl

theorem asked_zero : Asked (l :: expected) 0 ↔ trim l ≠ [] :=
  ⟨fun ⟨_, e, h⟩ => Option.some.inj e ▸ h, fun h => ⟨l, rfl, h⟩⟩

theorem Asked.of_take (h : Asked (expected.take n) i) : Asked expected i ∧ i < n := by
  obtain ⟨l, e, hl⟩ := h
  rw [List.getElem?_take] at e
  split at e
  · next hi => exact ⟨⟨l, e, hl⟩, hi⟩
  · cases e

theorem Found.take (h : Found actual expected place) (n : Nat) :
    Found actual (expected.take n) place where
  increasing hi hj hlt := h.increasing hi.of_take.1 hj.of_take.1 hlt
  contains hi hl := by
    rw [List.getElem?_take] at hi
    split at hi
    · exact h.contains hi hl
    · cases hi

theorem exists_found_of_blank (h : trim l = []) :
    (∃ place, Found actual (l :: expected) place) ↔ ∃ place, Found actual expected place := by
  have hzero : ¬ Asked (l :: expected) 0 := fun h0 => asked_zero.1 h0 h
  constructor
  · intro given
    obtain ⟨place, hf⟩ := given
    refine ⟨fun i => place (i + 1), fun hi hj hlt => ?_, fun hi hl => ?_⟩
    · exact hf.increasing (asked_succ.2 hi) (asked_succ.2 hj) (Nat.succ_lt_succ hlt)
    · exact hf.contains (i := _ + 1) hi hl
  · intro given
    obtain ⟨place, hf⟩ := given
    refine ⟨fun i => place (i - 1), @fun i j hi hj hlt => ?_, @fun i m hi hl => ?_⟩
    · cases i with
      | zero => exact absurd hi hzero
      | succ i =>
        cases j with
        | zero => exact absurd hj hzero
        | succ j => exact hf.increasing hi hj (Nat.lt_of_succ_lt_succ hlt)
    · cases i with
      | zero => exact absurd ⟨m, hi, hl⟩ hzero
      | succ i => exact hf.contains hi hl

/-- What is found behind the first line is found below it, with numbers counted from there. -/
theorem Found.exists_below (hf : Found actual (l :: expected) place) (h : trim l ≠ []) :
    ∃ before a below, actual = before ++ a :: below ∧ trim l <:+: a ∧
      ∃ place, Found below expected place := by
  have hzero : Asked (l :: expected) 0 := asked_zero.2 h
  obtain ⟨a, ha, hla⟩ := hf.contains (i := 0) rfl h
  obtain ⟨hlt, rfl⟩ := List.getElem?_eq_some_iff.1 ha
  have hafter (i : Nat) (hi : Asked expected i) : place 0 < place (i + 1) :=
    hf.increasing hzero (asked_succ.2 hi) (Nat.succ_pos i)
  refine ⟨actual.take (place 0), actual[place 0], actual.drop (place 0 + 1), ?_, hla,
    fun i => place (i + 1) - (place 0 + 1), @fun i j hi hj hlt => ?_, @fun i m hi hm => ?_⟩
  · rw [← List.drop_eq_getElem_cons hlt, List.take_append_drop]
  · have hplace : place (i + 1) < place (j + 1) :=
      hf.increasing (asked_succ.2 hi) (asked_succ.2 hj) (Nat.succ_lt_succ hlt)
    have hi := hafter i hi
    show place (i + 1) - (place 0 + 1) < place (j + 1) - (place 0 + 1)
    omega
  · obtain ⟨b, hb, hmb⟩ := hf.contains (i := i + 1) hi hm
    have hi := hafter i ⟨m, hi, hm⟩
    refine ⟨b, ?_, hmb⟩
    have hsum : place 0 + 1 + (place (i + 1) - (place 0 + 1)) = place (i + 1) := by omega
    rw [List.getElem?_drop, hsum, hb]

theorem Found.cons (hf : Found below expected place) (hla : trim l <:+: a)
    (before : List (List Char)) : Found (before ++ a :: below) (l :: expected)
      fun i => if i = 0 then before.length else before.length + 1 + place (i - 1) where
  increasing {i j} hi hj hlt := by
    cases j with
    | zero => cases hlt
    | succ j =>
      cases i with
      | zero =>
        show before.length < before.length + 1 + place j
        omega
      | succ i =>
        have hplace : place i < place j :=
          hf.increasing (asked_succ.1 hi) (asked_succ.1 hj) (Nat.lt_of_succ_lt_succ hlt)
        show before.length + 1 + place i < before.length + 1 + place j
        omega
  contains {i m} hi hm := by
    cases i with
    | zero =>
      obtain rfl : l = m := Option.some.inj hi
      exact ⟨a, by simp, hla⟩
    | succ i =>
      obtain ⟨b, hb, hmb⟩ := hf.contains hi hm
      refine ⟨b, ?_, hmb⟩
      show (before ++ a :: below)[before.length + 1 + place i]? = some b
      have hsub : before.length + 1 + place i - before.length = place i + 1 := by omega
      rw [List.getElem?_append_right (by omega), hsub, List.getElem?_cons_succ, hb]

theorem exists_found_of_ne (h : trim l ≠ []) :
    (∃ place, Found actual (l :: expected) place) ↔ ∃ before a below,
      actual = before ++ a :: below ∧ trim l <:+: a ∧ ∃ place, Found below expected place := by
  constructor
  · intro given
    obtain ⟨_, hf⟩ := given
    exact hf.exists_below h
  · intro given
    obtain ⟨before, a, below, rfl, hla, _, hf⟩ := given
    exact ⟨_, hf.cons hla before⟩

theorem sublistForall₂_tail (h : SublistForall₂ (· <:+: ·) (part :: ps) actual) :
    SublistForall₂ (· <:+: ·) ps actual := by
  obtain ⟨ls, hls, hsub⟩ := List.sublistForall₂_iff.1 h
  cases hls with
  | cons _ hls => exact List.sublistForall₂_iff.2 ⟨_, hls, (List.sublist_cons_self _ _).trans hsub⟩

theorem sublistForall₂_cons_iff : SublistForall₂ (· <:+: ·) (part :: ps) actual ↔
    ∃ before a below, actual = before ++ a :: below ∧ part <:+: a ∧
      SublistForall₂ (· <:+: ·) ps below := by
  constructor
  · intro h
    induction actual with
    | nil => cases h
    | cons b actual ih =>
      cases h with
      | cons hb h => exact ⟨[], b, actual, rfl, hb, h⟩
      | cons_right h =>
        obtain ⟨before, a, below, rfl, ha⟩ := ih h
        exact ⟨b :: before, a, below, rfl, ha⟩
  · intro given
    obtain ⟨before, a, below, rfl, ha, h⟩ := given
    induction before with
    | nil => exact .cons ha h
    | cons b before ih => exact .cons_right ih

theorem exists_found_iff : (∃ place, Found actual expected place) ↔
    SublistForall₂ (· <:+: ·) (parts expected) actual := by
  induction expected generalizing actual with
  | nil =>
    refine ⟨fun _ => .nil, fun _ => ⟨id, ?_, ?_⟩⟩
    · intro i j given
      obtain ⟨_, e, _⟩ := given
      cases e
    · intro i l e
      cases e
  | cons l expected ih =>
    by_cases hl : trim l = []
    · rw [exists_found_of_blank hl, parts_cons_of_blank hl, ih]
    · rw [exists_found_of_ne hl, parts_cons_of_ne hl, sublistForall₂_cons_iff]
      simp only [ih]

/-! Taking the first line that has the part. -/

/-- Whatever way there is to find a part and those behind it, the first line that has the part can
take the place of the one where it was found: there are only more lines below it. -/
theorem sublistForall₂_iff_dropWhile : SublistForall₂ (· <:+: ·) (part :: ps) actual ↔
    ∃ a below, actual.dropWhile (fun a => !occursIn part a) = a :: below ∧
      SublistForall₂ (· <:+: ·) ps below := by
  induction actual with
  | nil =>
    constructor
    · intro h
      cases h
    · intro given
      obtain ⟨_, _, e, -⟩ := given
      cases e
  | cons b actual ih =>
    by_cases hb : occursIn part b = true
    · rw [List.dropWhile_cons_of_neg (by simp [hb])]
      constructor
      · intro h
        refine ⟨b, actual, rfl, ?_⟩
        cases h with
        | cons _ h => exact h
        | cons_right h => exact sublistForall₂_tail h
      · intro given
        obtain ⟨_, _, e, h⟩ := given
        cases e
        exact .cons ((occursIn_iff part b).1 hb) h
    · rw [List.dropWhile_cons_of_pos (by simp [hb]), ← ih]
      constructor
      · intro h
        cases h with
        | cons hpart _ => exact absurd ((occursIn_iff part b).2 hpart) hb
        | cons_right h => exact h
      · exact .cons_right

/-- The search comes to its end exactly if all lines can be found. The line at which it stops is the
first one up to which they cannot. -/
theorem firstMissing_spec (n : Nat) (actual expected : List (List Char)) :
    match firstMissing n actual expected with
    | none => ∃ place, Found actual expected place
    | some m => ∃ i, m = n + i ∧ Asked expected i ∧
        (∃ place, Found actual (expected.take i) place) ∧
        ¬ ∃ place, Found actual (expected.take (i + 1)) place := by
  simp only [exists_found_iff]
  induction expected generalizing n actual with
  | nil => exact .nil
  | cons l expected ih =>
    simp only [firstMissing]
    by_cases hl : trim l = []
    · have htake (i : Nat) : parts ((l :: expected).take (i + 1)) = parts (expected.take i) :=
        parts_cons_of_blank hl
      have hrest := ih (n + 1) actual
      simp only [hl, List.isEmpty_nil, if_true]
      split at hrest
      · rwa [parts_cons_of_blank hl]
      · obtain ⟨i, hm, hi, hbefore, hnot⟩ := hrest
        exact ⟨i + 1, by omega, hi, by rwa [htake], by rwa [htake]⟩
    · have htake (i : Nat) :
          parts ((l :: expected).take (i + 1)) = trim l :: parts (expected.take i) :=
        parts_cons_of_ne hl
      simp only [List.isEmpty_iff, if_neg hl]
      cases hdrop : actual.dropWhile (fun a => !occursIn (trim l) a) with
      | nil =>
        refine ⟨0, rfl, asked_zero.2 hl, .nil, ?_⟩
        rw [htake, sublistForall₂_iff_dropWhile, hdrop]
        intro given
        obtain ⟨_, _, e, -⟩ := given
        cases e
      | cons a below =>
        -- the first line that has the part will do for any search that goes on
        have hiff (ps : List (List Char)) : SublistForall₂ (· <:+: ·) (trim l :: ps) actual ↔
            SublistForall₂ (· <:+: ·) ps below := by
          rw [sublistForall₂_iff_dropWhile, hdrop]
          simp
        have hrest := ih (n + 1) below
        split at hrest
        · next hnone =>
          simp only [hnone]
          rwa [parts_cons_of_ne hl, hiff]
        · next m hsome =>
          simp only [hsome]
          obtain ⟨i, hm, hi, hbefore, hnot⟩ := hrest
          exact ⟨i + 1, by omega, hi, by rwa [htake, hiff], by rwa [htake, hiff]⟩

theorem firstMissing_eq_none_iff :
    firstMissing n actual expected = none ↔ ∃ place, Found actual expected place := by
  have hspec := firstMissing_spec n actual expected
  split at hspec
  · next hnone => exact ⟨fun _ => hspec, fun _ => hnone⟩
  · next m hsome =>
    obtain ⟨i, -, -, -, hnot⟩ := hspec
    rw [hsome]
    refine ⟨fun e => (Option.some_ne_none m e).elim, fun ⟨place, h⟩ => ?_⟩
    exact absurd ⟨place, h.take _⟩ hnot

theorem firstMissing_eq_some_iff : firstMissing 0 actual expected = some m ↔
    Asked expected m ∧ (¬ ∃ place, Found actual (expected.take (m + 1)) place) ∧
      ∀ j < m, ∃ place, Found actual (expected.take (j + 1)) place := by
  have hshorter {i j : Nat} (hij : j ≤ i) (h : ∃ place, Found actual (expected.take i) place) :
      ∃ place, Found actual (expected.take j) place := by
    obtain ⟨place, h⟩ := h
    refine ⟨place, ?_⟩
    have htake := h.take j
    rwa [List.take_take, Nat.min_eq_left hij] at htake
  have hspec := firstMissing_spec 0 actual expected
  split at hspec
  · next hnone =>
    obtain ⟨place, hf⟩ := hspec
    rw [hnone]
    constructor
    · intro e
      cases e
    · intro given
      obtain ⟨-, hnot, -⟩ := given
      exact absurd ⟨place, hf.take _⟩ hnot
  · next k hsome =>
    obtain ⟨i, rfl, hi, hbefore, hnot⟩ := hspec
    rw [Nat.zero_add] at hsome
    rw [hsome]
    constructor
    · intro e
      obtain rfl := Option.some.inj e
      exact ⟨hi, hnot, fun j hj => hshorter hj hbefore⟩
    · intro given
      obtain ⟨-, hnot', hbefore'⟩ := given
      have hle : m ≤ i := by
        by_contra hlt
        exact hnot (hbefore' i (by omega))
      have hge : i ≤ m := by
        by_contra hlt
        exact hnot' (hshorter (by omega) hbefore)
      rw [Nat.le_antisymm hle hge]

theorem firstDifference_eq_none_iff :
    firstDifference n actual expected = none ↔ actual = expected := by
  induction actual generalizing n expected with
  | nil => cases expected <;> simp [firstDifference]
  | cons a actual ih =>
    cases expected with
    | nil => simp [firstDifference]
    | cons b expected =>
      by_cases hab : a = b
      · simp [firstDifference, hab, ih]
      · simp [firstDifference, hab]

/-! More lines in the output. -/

theorem sublistForall₂_parts_iff (h : ∀ part ∈ ps, part ≠ [] ∧ ∃ l, part = trim l) :
    SublistForall₂ (· <:+: ·) ps (parts actual) ↔ SublistForall₂ (· <:+: ·) ps actual := by
  constructor
  · intro hsub
    obtain ⟨ls, hls, hparts⟩ := List.sublistForall₂_iff.1 hsub
    have hmap : SublistForall₂ (· <:+: ·) ps (actual.map trim) :=
      List.sublistForall₂_iff.2 ⟨ls, hls, hparts.trans List.filter_sublist⟩
    rw [List.sublistForall₂_map_right_iff] at hmap
    clear hls hparts hsub
    induction hmap with
    | nil => exact .nil
    | @cons part a ps _ ha _ ih =>
      obtain ⟨⟨-, l, rfl⟩, hps⟩ := List.forall_mem_cons.1 h
      exact .cons ((trim_infix_trim_iff l a).1 ha) (ih hps)
    | cons_right _ ih => exact .cons_right (ih h)
  · intro hsub
    induction hsub with
    | nil => exact .nil
    | @cons part a ps _ ha _ ih =>
      obtain ⟨⟨hne, l, rfl⟩, hps⟩ := List.forall_mem_cons.1 h
      have htrim := (trim_infix_trim_iff l a).2 ha
      have hblank : trim a ≠ [] := fun e => hne (List.infix_nil.1 (e ▸ htrim))
      rw [parts_cons_of_ne hblank]
      exact .cons htrim (ih hps)
    | @cons_right a ps _ _ ih =>
      by_cases ha : trim a = []
      · rw [parts_cons_of_blank ha]
        exact ih h
      · rw [parts_cons_of_ne ha]
        exact .cons_right (ih h)

theorem compareContained_eq_none_iff_parts {actual expected : List Char} :
    compareContained actual expected = none ↔
      SublistForall₂ (· <:+: ·) (parts (lines (trim expected))) (parts (lines actual)) := by
  have hparts : ∀ part ∈ parts (lines (trim expected)), part ≠ [] ∧ ∃ l, part = trim l :=
    fun part hp => ⟨by simpa using (List.mem_filter.1 hp).2, exists_of_mem_parts hp⟩
  rw [compareContained, firstMissing_eq_none_iff, exists_found_iff,
    ← sublistForall₂_parts_iff hparts, parts_lines_trim actual]

theorem compareContained_of_linesAmong {actual more expected : List Char}
    (h : LinesAmong actual more) (hc : compareContained actual expected = none) :
    compareContained more expected = none := by
  rw [compareContained_eq_none_iff_parts] at hc ⊢
  obtain ⟨ls, hls, hsub⟩ := List.sublistForall₂_iff.1 hc
  exact List.sublistForall₂_iff.2 ⟨ls, hls, hsub.trans (h.filter _)⟩

theorem lines_append_feed (as bs : List Char) :
    lines (as ++ '\n' :: bs) = (pieces as).map dropReturn ++ lines bs := by
  simp only [lines, pieces_append_feed, List.reverse_append]
  cases h : (pieces bs).reverse with
  | nil => exact absurd (List.reverse_eq_nil_iff.1 h) (pieces_ne_nil bs)
  | cons last before => simp

theorem linesAmong_above {front : List Char} (h : ∀ c ∈ front.getLast?, c = '\n')
    (line rest : List Char) : LinesAmong (front ++ rest) (front ++ (line ++ '\n' :: rest)) := by
  have hline : (lines rest).Sublist (lines (line ++ '\n' :: rest)) := by
    rw [lines_append_feed]
    exact List.sublist_append_right _ _
  cases hlast : front.getLast? with
  | none =>
    rw [List.getLast?_eq_none_iff.1 hlast]
    exact hline.map trim
  | some c =>
    obtain rfl := h c hlast
    obtain ⟨body, rfl⟩ := List.getLast?_eq_some_iff.1 hlast
    simp only [LinesAmong, List.append_assoc, List.singleton_append, lines_append_feed]
    rw [← lines_append_feed line rest]
    exact (hline.append_left _).map trim

/-! The message about a line that is missing. -/

theorem feed_notMem_of_mem_pieces {cs l : List Char} (h : l ∈ pieces cs) : '\n' ∉ l := by
  induction cs generalizing l with
  | nil =>
    obtain rfl := List.mem_singleton.1 h
    exact List.not_mem_nil
  | cons c cs ih =>
    by_cases hc : c = '\n'
    · rw [pieces, if_pos hc] at h
      cases h with
      | head => exact List.not_mem_nil
      | tail _ h => exact ih h
    · rw [pieces, if_neg hc] at h
      cases hp : pieces cs with
      | nil => exact absurd hp (pieces_ne_nil cs)
      | cons m ms =>
        rw [hp] at h ih
        cases h with
        | head => simpa [Ne.symm hc] using ih List.mem_cons_self
        | tail _ h => exact ih (List.mem_cons_of_mem m h)

theorem feed_notMem_of_mem_lines {cs l : List Char} (h : l ∈ lines cs) : '\n' ∉ l := by
  have hreturn (m : List Char) (hm : '\n' ∉ m) : '\n' ∉ dropReturn m := by
    unfold dropReturn
    split
    · exact fun hmem => hm (List.mem_of_mem_dropLast hmem)
    · exact hm
  unfold lines at h
  split at h
  · cases h
  · next last before hp =>
    have hpieces (m : List Char) (hm : m ∈ last :: before) : '\n' ∉ m := by
      rw [← hp, List.mem_reverse] at hm
      exact feed_notMem_of_mem_pieces hm
    rcases List.mem_append.1 h with h | h
    · obtain ⟨m, hm, rfl⟩ := List.mem_map.1 h
      exact hreturn m (hpieces m (List.mem_cons_of_mem last (List.mem_reverse.1 hm)))
    · split at h
      · cases h
      · obtain rfl := List.mem_singleton.1 h
        exact hpieces l List.mem_cons_self

theorem pieces_of_feed_notMem (h : '\n' ∉ l) : pieces l = [l] := by
  induction l with
  | nil => rfl
  | cons c l ih =>
    obtain ⟨hc, hl⟩ := not_or.1 (fun hmem => h (List.mem_cons.2 hmem))
    rw [pieces, if_neg (Ne.symm hc), ih hl]

theorem pieces_flatMap_feed {ls : List (List Char)} (h : '\n' ∉ l) (hls : ∀ m ∈ ls, '\n' ∉ m) :
    pieces (l ++ ls.flatMap ('\n' :: ·)) = l :: ls := by
  induction ls generalizing l with
  | nil => rw [List.flatMap_nil, List.append_nil, pieces_of_feed_notMem h]
  | cons m ls ih =>
    obtain ⟨hm, hls⟩ := List.forall_mem_cons.1 hls
    rw [List.flatMap_cons, List.cons_append, pieces_append_feed, pieces_of_feed_notMem h, ih hm hls]
    rfl

def markMissing (missing i : Nat) (l : List Char) : List Char :=
  if i = missing then l ++ "   <== missing".toList else l

def markedLines (expected : List Char) (missing : Nat) : List (List Char) :=
  "```".toList :: ((lines (trim expected)).mapIdx (markMissing missing) ++ ["```".toList])

theorem toList_marked (missing i : Nat) (l : List Char) : ("\n" ++ String.ofList l ++
    (if i = missing then "   <== missing" else "")).toList = '\n' :: markMissing missing i l := by
  unfold markMissing
  split
  · simp
  · simp

theorem toList_heading : "A line is missing from the output:\n```".toList =
    "A line is missing from the output:".toList ++ '\n' :: "```".toList := by decide

theorem toList_missingMessage (expected : List Char) (missing : Nat) :
    (missingMessage expected missing).toList = "A line is missing from the output:".toList ++
      (markedLines expected missing).flatMap ('\n' :: ·) := by
  have hfence : "\n```".toList = '\n' :: "```".toList := rfl
  unfold missingMessage
  rw [String.toList_append, String.toList_append, String.toList_join, toList_heading, hfence,
    markedLines, List.mapIdx_eq_zipIdx_map, List.mapIdx_eq_zipIdx_map, List.flatMap_map,
    List.flatMap_cons, List.flatMap_append, List.flatMap_map, List.flatMap_singleton]
  simp only [toList_marked, List.append_assoc, List.cons_append]

theorem pieces_missingMessage (expected : List Char) (missing : Nat) :
    pieces (missingMessage expected missing).toList =
      "A line is missing from the output:".toList :: markedLines expected missing := by
  rw [toList_missingMessage]
  refine pieces_flatMap_feed (by decide) ?_
  intro m hm
  rcases List.mem_cons.1 hm with rfl | hm
  · decide
  rcases List.mem_append.1 hm with hm | hm
  · obtain ⟨i, hi, rfl⟩ := List.mem_mapIdx.1 hm
    have hline := feed_notMem_of_mem_lines (List.getElem_mem hi)
    unfold markMissing
    split
    · simp [hline]
    · exact hline
  · obtain rfl := List.mem_singleton.1 hm
    decide

/-- The search for the lines of an expectation passes exactly if the lines that are not blank can be
given lines of the output that have them, further and further down. If it fails, the line marked in
the message is the first up to which there is no such way. Equal lines pass, and an output passes
with more lines in it, blank ones or not, wherever they are put in. -/
theorem compareContained_decides (actual expected : List Char) :
    (compareContained actual expected = none ↔
      ∃ place, Found (lines (trim actual)) (lines (trim expected)) place) ∧
    (∀ i, compareContained actual expected = some i ↔ Asked (lines (trim expected)) i ∧
      (¬ ∃ place, Found (lines (trim actual)) ((lines (trim expected)).take (i + 1)) place) ∧
      ∀ j < i, ∃ place, Found (lines (trim actual)) ((lines (trim expected)).take (j + 1)) place) ∧
    (∀ i, pieces (missingMessage expected i).toList =
      "A line is missing from the output:".toList :: markedLines expected i) ∧
    (compareExactly actual expected = none ↔ lines (trim actual) = lines (trim expected)) ∧
    (compareExactly actual expected = none → compareContained actual expected = none) ∧
    (∀ more, LinesAmong actual more → compareContained actual expected = none →
      compareContained more expected = none) := by
  refine ⟨firstMissing_eq_none_iff, fun i => firstMissing_eq_some_iff,
    pieces_missingMessage expected, firstDifference_eq_none_iff, ?_,
    fun more h hc => compareContained_of_linesAmong h hc⟩
  intro h
  have hlines : lines (trim actual) = lines (trim expected) := firstDifference_eq_none_iff.1 h
  rw [compareContained, firstMissing_eq_none_iff, hlines]
  exact ⟨id, fun _ _ hlt => hlt, fun {i l} hi _ => ⟨l, hi, trim_infix_self l⟩⟩

/-- A line put in does no harm; and what stands in the wrong order is not found. -/
theorem compareContained_decides_order :
    compareContained "a\n b c \nd".toList "b\n\n  d".toList = none ∧
    compareContained "a\n b c \nx\nd".toList "b\n\n  d".toList = none ∧
    compareContained "b\na".toList "a\n b".toList = some 1 ∧
    ¬ ∃ place, Found (lines (trim "b\na".toList)) (lines (trim "a\n b".toList)) place := by
  have hfound : compareContained "a\n b c \nd".toList "b\n\n  d".toList = none := by decide
  have hmissing : compareContained "b\na".toList "a\n b".toList = some 1 := by decide
  have hlast : "a\n b c \n".toList.getLast? = some '\n' := by decide
  have hmore : LinesAmong "a\n b c \nd".toList "a\n b c \nx\nd".toList :=
    linesAmong_above (fun c hc => Option.some.inj (hc.symm.trans hlast)) "x".toList "d".toList
  obtain ⟨-, -, -, -, -, hlines⟩ := compareContained_decides "a\n b c \nd".toList "b\n\n  d".toList
  obtain ⟨-, hfirst, -⟩ := compareContained_decides "b\na".toList "a\n b".toList
  exact ⟨hfound, hlines _ hmore hfound, hmissing, ((hfirst 1).1 hmissing).2.1⟩

end BrilIR.Text
