import BrilIR.Proofs.Decimal.Numeral
import BrilIR.Proofs.Diagnostic.Collector
import BrilIR.Proofs.Verify.Limit

/-!
What a limited pass counts. An op is passed over, with all ops below it, if there are enough
diagnostics when its turn comes; an op that has its turn reports everything, and all of that is
either kept or counted. So the count is that of all diagnostics exactly if the ops passed over have
none.
-/

namespace BrilIR

mutual

/-- All that is wrong with an op and the ops below it, in order. Beside each diagnostic stands how
many come before the turn of the op that reports it, given that `n` come before the turn of this
op. -/
def Op.turns (n : Nat) : Op → List (Nat × Diagnostic)
  | .mk kind o none => (Op.headFindings (.mk kind o none)).map (n, ·)
  | .mk kind o (some r) =>
    let own := Op.headFindings (.mk kind o (some r))
    own.map (n, ·) ++ Region.turns n (n + own.length) r

def Region.turns (turn n : Nat) : List Block → List (Nat × Diagnostic)
  | [] => []
  | .mk _ ops :: r =>
    let own := Block.terminatorFindings ops
    own.map (turn, ·) ++ Block.turns (n + own.length) ops ++
      Region.turns turn (n + own.length + (Block.findings ops).length) r

def Block.turns (n : Nat) : List Op → List (Nat × Diagnostic)
  | [] => []
  | op :: ops => op.turns n ++ Block.turns (n + op.findings.length) ops

end

/-- The diagnostics of the ops whose turn comes before there are `limit` of them. -/
def Op.reported (limit : Nat) (op : Op) : List Diagnostic :=
  ((op.turns 0).filter (·.1 < limit)).map (·.2)

theorem map_snd_pairs (n : Nat) (ds : List Diagnostic) : (ds.map (n, ·)).map (·.2) = ds := by
  rw [List.map_map]
  exact List.map_id ds

mutual

theorem Op.map_snd_turns (n : Nat) : (op : Op) → (op.turns n).map (·.2) = op.findings
  | .mk kind o none => map_snd_pairs n _
  | .mk kind o (some r) => by
    rw [Op.turns, Op.findings, List.map_append, map_snd_pairs, Region.map_snd_turns]

theorem Region.map_snd_turns (turn n : Nat) : (r : List Block) →
    (Region.turns turn n r).map (·.2) = Region.findings r
  | [] => rfl
  | .mk label ops :: r => by
    rw [Region.turns, Region.findings, List.map_append, List.map_append, map_snd_pairs,
      Block.map_snd_turns, Region.map_snd_turns]

theorem Block.map_snd_turns (n : Nat) : (ops : List Op) →
    (Block.turns n ops).map (·.2) = Block.findings ops
  | [] => rfl
  | op :: ops => by
    rw [Block.turns, Block.findings, List.map_append, Op.map_snd_turns, Block.map_snd_turns]

end

theorem Op.length_turns (n : Nat) (op : Op) : (op.turns n).length = op.findings.length := by
  rw [← op.map_snd_turns n, List.length_map]

theorem Block.length_turns (n : Nat) (ops : List Op) :
    (Block.turns n ops).length = (Block.findings ops).length := by
  rw [← Block.map_snd_turns n ops, List.length_map]

/-! The turn of an op is behind all that comes before it, and no later than what it reports. -/

def Timely (turn n : Nat) (l : List (Nat × Diagnostic)) : Prop :=
  ∀ i x, l[i]? = some x → turn ≤ x.1 ∧ x.1 ≤ n + i

namespace Timely

variable {turn turn' n n' : Nat} {l l' : List (Nat × Diagnostic)}

theorem nil : Timely turn n [] := fun _ _ h => nomatch h

theorem pairs (h : turn ≤ n) (ds : List Diagnostic) : Timely turn n (ds.map (turn, ·)) := by
  intro i x hx
  rw [List.getElem?_map, Option.map_eq_some_iff] at hx
  obtain ⟨d, -, rfl⟩ := hx
  exact ⟨Nat.le_refl _, by omega⟩

theorem mono (h : Timely turn n l) (ht : turn' ≤ turn) : Timely turn' n l :=
  fun i x hx => ⟨Nat.le_trans ht (h i x hx).1, (h i x hx).2⟩

theorem append (h : Timely turn n l) (h' : Timely turn n' l') (hn : n' = n + l.length) :
    Timely turn n (l ++ l') := by
  intro i x hx
  by_cases hi : i < l.length
  · rw [List.getElem?_append_left hi] at hx
    exact h i x hx
  · rw [List.getElem?_append_right (Nat.le_of_not_lt hi)] at hx
    obtain ⟨hle, hlt⟩ := h' _ x hx
    exact ⟨hle, by omega⟩

end Timely

mutual

theorem Op.timely_turns (n : Nat) : (op : Op) → Timely n n (op.turns n)
  | .mk kind o none => .pairs (Nat.le_refl n) _
  | .mk kind o (some r) =>
    (Timely.pairs (Nat.le_refl n) _).append (Region.timely_turns n _ (Nat.le_add_right n _) r)
      (by rw [List.length_map])

theorem Region.timely_turns (turn n : Nat) (h : turn ≤ n) : (r : List Block) →
    Timely turn n (Region.turns turn n r)
  | [] => .nil
  | .mk label ops :: r => by
    have hops := (Block.timely_turns (n + (Block.terminatorFindings ops).length) ops).mono
      (Nat.le_trans h (Nat.le_add_right n _))
    have hr := Region.timely_turns turn
      (n + (Block.terminatorFindings ops).length + (Block.findings ops).length) (by omega) r
    refine ((Timely.pairs h _).append hops (by rw [List.length_map])).append hr ?_
    rw [List.length_append, List.length_map, Block.length_turns, Nat.add_assoc]

theorem Block.timely_turns (n : Nat) : (ops : List Op) → Timely n n (Block.turns n ops)
  | [] => .nil
  | op :: ops =>
    (Op.timely_turns n op).append
      ((Block.timely_turns (n + op.findings.length) ops).mono (Nat.le_add_right n _))
      (by rw [op.length_turns])

end

/-! What is counted. -/

open Diagnostics

section

variable {limit turn n : Nat}

theorem countP_pairs (h : turn < limit) (ds : List Diagnostic) :
    (ds.map (turn, ·)).countP (fun x => x.1 < limit) = ds.length := by
  rw [List.countP_map]
  exact List.countP_eq_length.2 fun _ _ => decide_eq_true h

theorem Timely.countP_eq_zero {l : List (Nat × Diagnostic)} (hl : Timely turn n l)
    (h : limit ≤ turn) : l.countP (fun x => x.1 < limit) = 0 := by
  rw [List.countP_eq_zero]
  intro x hx
  obtain ⟨i, hi⟩ := List.mem_iff_getElem?.1 hx
  have hle := (hl i x hi).1
  simp only [decide_eq_true_eq]
  omega

theorem Diagnostics.Given.isFull_iff_le {ds : List Diagnostic} {c : Diagnostics}
    (h : Given limit ds c) (hl : limit ≠ 0) : c.isFull = true ↔ limit ≤ ds.length := by
  rw [isFull_iff, h.limit_eq, h.kept_eq, upTo, if_neg hl, List.length_take]
  omega

/-- An op that has its turn when the collector is full is passed over, and no op below it would have
its turn before. -/
theorem Op.total_verifyFrom_of_isFull {p : Pass} {ds : List Diagnostic} (hl : limit ≠ 0) (op : Op)
    (h : Given limit ds p.diagnostics) (hf : p.diagnostics.isFull = true) :
    (op.verifyFrom p).diagnostics.total =
      p.diagnostics.total + (op.turns ds.length).countP (fun x => x.1 < limit) := by
  have hpass : op.verifyFrom p = p := by
    cases op with
    | mk kind o region =>
      cases region with
      | none => rw [Op.verifyFrom, if_pos hf]
      | some r => rw [Op.verifyFrom, if_pos hf]
  rw [hpass, (op.timely_turns ds.length).countP_eq_zero ((h.isFull_iff_le hl).1 hf), Nat.add_zero]

end

mutual

theorem Op.total_verifyFrom {limit : Nat} (hl : limit ≠ 0) : (op : Op) → {p : Pass} →
    {ds : List Diagnostic} → Given limit ds p.diagnostics →
    (op.verifyFrom p).diagnostics.total =
      p.diagnostics.total + (op.turns ds.length).countP (fun x => x.1 < limit)
  | .mk kind o none, p, ds, h => by
    by_cases hf : p.diagnostics.isFull = true
    · exact Op.total_verifyFrom_of_isFull hl _ h hf
    · have hlt : ds.length < limit := by rwa [h.isFull_iff_le hl, Nat.not_le] at hf
      rw [Op.verifyFrom, if_neg hf, Op.turns, countP_pairs hlt]
      exact (grows_pushAll _ _).total_eq
  | .mk kind o (some r), p, ds, h => by
    by_cases hf : p.diagnostics.isFull = true
    · exact Op.total_verifyFrom_of_isFull hl _ h hf
    · have hlt : ds.length < limit := by rwa [h.isFull_iff_le hl, Nat.not_le] at hf
      have hgiven : Given limit (ds ++ Op.headFindings (.mk kind o (some r)))
          ((p.enter (.mk kind o (some r))).report
            (Op.headFindings (.mk kind o (some r)))).diagnostics :=
        (tracks_given limit).pushAll h
      have hr := Region.total_verifyFrom hl hlt r hgiven
      rw [Op.verifyFrom, if_neg hf, hr, Op.turns, List.countP_append, countP_pairs hlt,
        List.length_append, ← Nat.add_assoc]
      congr 1
      exact (grows_pushAll _ _).total_eq

theorem Region.total_verifyFrom {limit turn : Nat} (hl : limit ≠ 0) (ht : turn < limit) :
    (r : List Block) → {p : Pass} → {ds : List Diagnostic} → Given limit ds p.diagnostics →
    (Region.verifyFrom p r).diagnostics.total =
      p.diagnostics.total + (Region.turns turn ds.length r).countP (fun x => x.1 < limit)
  | [], p, ds, h => rfl
  | .mk label ops :: r, p, ds, h => by
    have hgiven : Given limit (ds ++ Block.terminatorFindings ops)
        (p.report (Block.terminatorFindings ops)).diagnostics := (tracks_given limit).pushAll h
    have hops := Block.total_verifyFrom hl ops hgiven
    have hr := Region.total_verifyFrom hl ht r
      (Block.tracks_verifyFrom (tracks_given limit) ops hgiven)
    have hown : (p.report (Block.terminatorFindings ops)).diagnostics.total =
        p.diagnostics.total + (Block.terminatorFindings ops).length :=
      (grows_pushAll _ _).total_eq
    rw [Region.verifyFrom, hr, hops, hown, Region.turns, List.countP_append, List.countP_append,
      countP_pairs ht]
    simp only [List.length_append, Nat.add_assoc]

theorem Block.total_verifyFrom {limit : Nat} (hl : limit ≠ 0) : (ops : List Op) → {p : Pass} →
    {ds : List Diagnostic} → Given limit ds p.diagnostics →
    (Block.verifyFrom p ops).diagnostics.total =
      p.diagnostics.total + (Block.turns ds.length ops).countP (fun x => x.1 < limit)
  | [], p, ds, h => rfl
  | op :: ops, p, ds, h => by
    have hop := Op.total_verifyFrom hl op h
    have hops := Block.total_verifyFrom hl ops (Op.tracks_verifyFrom (tracks_given limit) op h)
    rw [Block.verifyFrom, hops, hop, Block.turns, List.countP_append, List.length_append]
    omega

end

namespace Diagnostics

theorem render_eq_append (source : String) (c : Diagnostics) : c.render source =
    "\n".intercalate (c.kept.map (·.render source)) ++
      if c.dropped = 0 then ""
      else "\n(" ++ toString c.dropped ++ " more errors not shown)" := by
  have hline : "\n" ++ c.droppedLine =
      "\n(" ++ toString c.dropped ++ " more errors not shown)" := by
    rw [droppedLine, ← String.append_assoc, ← String.append_assoc]
    rfl
  rw [← hline]
  rfl

theorem moreLine_inj {j k : Nat} :
    "\n(" ++ toString j ++ " more errors not shown)" =
      "\n(" ++ toString k ++ " more errors not shown)" ↔ j = k := by
  rw [String.append_left_inj, String.append_right_inj]
  refine ⟨fun h => ?_, congrArg toString⟩
  have hdigits : Nat.toDigits 10 j = Nat.toDigits 10 k := by simpa using congrArg String.toList h
  rw [← numeralValue_toDigits j, hdigits, numeralValue_toDigits]

theorem moreLine_ne (k : Nat) : "\n(" ++ toString k ++ " more errors not shown)" ≠ "" := by
  intro h
  have hlength := congrArg String.length h
  rw [String.length_append, String.length_append] at hlength
  have hopen : "\n(".length = 2 := rfl
  have hempty : "".length = 0 := rfl
  omega

theorem render_eq_iff (source : String) (c : Diagnostics) :
    (c.render source = "\n".intercalate (c.kept.map (·.render source)) ↔ c.dropped = 0) ∧
      ∀ k, c.render source = "\n".intercalate (c.kept.map (·.render source)) ++
        ("\n(" ++ toString k ++ " more errors not shown)") ↔ c.dropped ≠ 0 ∧ c.dropped = k := by
  rw [render_eq_append]
  by_cases h : c.dropped = 0
  · rw [if_pos h, String.append_empty]
    refine ⟨iff_of_true rfl h, fun k => iff_of_false (fun e => moreLine_ne k ?_) fun hk => hk.1 h⟩
    rwa [← String.append_right_inj, String.append_empty, eq_comm]
  · rw [if_neg h]
    refine ⟨iff_of_false (fun e => moreLine_ne c.dropped ?_) h, fun k => ?_⟩
    · rwa [← String.append_right_inj, String.append_empty]
    · rw [String.append_right_inj, moreLine_inj]
      exact ⟨fun e => ⟨h, e⟩, fun e => e.2⟩

end Diagnostics

namespace Op

variable {n : Nat}

theorem length_reported (limit : Nat) (op : Op) :
    (op.reported limit).length = (op.turns 0).countP (fun x => x.1 < limit) := by
  rw [reported, List.length_map, List.countP_eq_length_filter]

theorem total_verify (op : Op) (hn : 0 < n) : (op.verify n).total = (op.reported n).length := by
  have hcount := Op.total_verifyFrom (Nat.ne_of_gt hn) op (p := ⟨{ limit := n }, []⟩)
    (Given.empty n)
  rw [length_reported]
  exact hcount.trans (Nat.zero_add _)

/-- The ops that report the first `n` diagnostics have their turn before there are `n`. -/
theorem turn_lt_of_mem_take (op : Op) {x : Nat × Diagnostic} (hx : x ∈ (op.turns 0).take n) :
    x.1 < n := by
  obtain ⟨i, hi⟩ := List.mem_iff_getElem?.1 hx
  rw [List.getElem?_take] at hi
  split at hi
  · next hlt =>
    have hle := (op.timely_turns 0 i x hi).2
    omega
  · cases hi

theorem exists_reported_eq (op : Op) (hn : 0 < n) :
    ∃ hidden, op.reported n = (op.verify n).kept ++ hidden := by
  have hfirst : ((op.turns 0).take n).filter (·.1 < n) = (op.turns 0).take n :=
    List.filter_eq_self.2 fun _ hx => decide_eq_true (op.turn_lt_of_mem_take hx)
  have hkept : (op.verify n).kept = ((op.turns 0).take n).map (·.2) := by
    rw [kept_verify, upTo, if_neg (Nat.ne_of_gt hn), List.map_take, op.map_snd_turns]
  refine ⟨(((op.turns 0).drop n).filter (·.1 < n)).map (·.2), ?_⟩
  calc op.reported n
      = (((op.turns 0).take n ++ (op.turns 0).drop n).filter (·.1 < n)).map (·.2) := by
        rw [List.take_append_drop, reported]
    _ = (op.verify n).kept ++ (((op.turns 0).drop n).filter (·.1 < n)).map (·.2) := by
        rw [List.filter_append, hfirst, List.map_append, hkept]

theorem length_reported_eq_iff (op : Op) :
    (op.reported n).length = (op.verify 0).kept.length ↔ ∀ x ∈ op.turns 0, x.1 < n := by
  rw [kept_verify_zero, ← op.length_turns 0, length_reported, List.countP_eq_length]
  simp only [decide_eq_true_eq]

/-- Kept and counted is exactly what is reported by the ops that have their turn before there are
`n` diagnostics, which is all there is if the ops passed over have none. The text says how many of
those are not shown, if there are any. -/
theorem verify_counts_reported (op : Op) (hn : 0 < n) :
    (op.turns 0).map (·.2) = (op.verify 0).kept ∧
      (op.verify n).kept.length + (op.verify n).dropped = (op.reported n).length ∧
      ((op.verify n).kept.length + (op.verify n).dropped = (op.verify 0).kept.length ↔
        ∀ x ∈ op.turns 0, x.1 < n) ∧
      ∃ hidden, op.reported n = (op.verify n).kept ++ hidden ∧ ∀ source,
        let shown := "\n".intercalate ((op.verify n).kept.map (·.render source))
        ((op.verify n).render source = shown ↔ hidden = []) ∧
          ∀ k, (op.verify n).render source =
              shown ++ ("\n(" ++ toString k ++ " more errors not shown)") ↔
            hidden ≠ [] ∧ hidden.length = k := by
  have htotal : (op.verify n).kept.length + (op.verify n).dropped = (op.reported n).length :=
    op.total_verify hn
  obtain ⟨hidden, hreported⟩ := op.exists_reported_eq hn
  have hdropped : (op.verify n).dropped = hidden.length := by
    rw [hreported, List.length_append] at htotal
    omega
  refine ⟨?_, htotal, ?_, hidden, hreported, fun source => ?_⟩
  · rw [kept_verify_zero, map_snd_turns]
  · rw [htotal, length_reported_eq_iff]
  · obtain ⟨hshown, hline⟩ := render_eq_iff source (op.verify n)
    rw [hdropped, List.length_eq_zero_iff] at hshown
    refine ⟨hshown, fun k => ?_⟩
    rw [hline k, hdropped, ne_eq, List.length_eq_zero_iff]

def emptyLoads : Op :=
  moduleOf [ofOperation (.instr .load) {} none, ofOperation (.instr .load) {} none]

example : (emptyLoads.turns 0).map (·.1) = [0, 0, 2, 2] := by decide

theorem verify_counts_reported_emptyLoads :
    0 < 1 ∧ (emptyLoads.reported 1).length = 2 ∧
      (emptyLoads.verify 1).kept.length + (emptyLoads.verify 1).dropped =
        (emptyLoads.reported 1).length :=
  ⟨by decide, by decide, (emptyLoads.verify_counts_reported (n := 1) (by decide)).2.1⟩

/-- The second load is passed over, and what is wrong with it is not counted. -/
theorem not_all_counted_emptyLoads :
    0 < 1 ∧ (emptyLoads.verify 1).kept.length + (emptyLoads.verify 1).dropped ≠
      (emptyLoads.verify 0).kept.length := by
  decide

end Op

end BrilIR
