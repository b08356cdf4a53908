import Mathlib.Data.List.Dedup
import Mathlib.Data.List.Nodup
import BrilIR.Proofs.Ty.Interning

/-!
Interning, instance by instance. A type is an object with an address; a pointer type holds the
handle of the object that it points to, from whatever table that is. Tables look kinds up with an
equality that tries the addresses first. Still each table keeps one object for each type, equality
is that of the types, and the tables that keep types only behave the same.
-/

namespace BrilIR

mutual

/-- A handle: the address of an object that never changes, and what the object is. -/
inductive TyInstance where
  | mk (address : Nat) (kind : TyKind)

inductive TyKind where
  | int (width : UInt32)
  | float (format : FloatTy)
  | ptr (pointee : TyInstance)

end

namespace TyInstance

def address : TyInstance → Nat
  | mk address _ => address

def kind : TyInstance → TyKind
  | mk _ kind => kind

def sameInstance (a b : TyInstance) : Bool := a.address == b.address

end TyInstance

mutual

def TyInstance.type : TyInstance → Ty
  | .mk _ kind => kind.type

def TyKind.type : TyKind → Ty
  | .int width => .int width
  | .float format => .float format
  | .ptr pointee => .ptr pointee.type

end

mutual

/-- Handles of one object are equal without a look at it. -/
def TyInstance.equal : TyInstance → TyInstance → Bool
  | .mk a k, .mk b l => a == b || k.equal l

def TyKind.equal : TyKind → TyKind → Bool
  | .int u, .int v => u == v
  | .float f, .float g => f == g
  | .ptr p, .ptr q => p.equal q
  | _, _ => false

end

structure TyTables where
  next : Nat := 0
  table : Nat → List TyInstance := fun _ => []

namespace TyTables

def lookup? (s : TyTables) (n : Nat) (k : TyKind) : Option TyInstance :=
  (s.table n).find? fun e => e.kind.equal k

def insert (s : TyTables) (n : Nat) (k : TyKind) : TyTables where
  next := s.next + 1
  table := Function.update s.table n (s.table n ++ [.mk s.next k])

/-- Looks a kind up, once more before a new object is made, since others may have come first. -/
def intern (s : TyTables) (n : Nat) (k : TyKind) : TyInstance × TyTables :=
  match s.lookup? n k with
  | some e => (e, s)
  | none =>
    match s.lookup? n k with
    | some e => (e, s)
    | none => (.mk s.next k, s.insert n k)

def Stored (s : TyTables) (e : TyInstance) : Prop := ∃ n, e ∈ s.table n

def Covers (s : TyTables) (k : TyKind) : Prop := ∀ p, k = .ptr p → s.Stored p

/-- Addresses tell all objects apart, and a table has no type twice. -/
structure WellFormed (s : TyTables) : Prop where
  address_lt : ∀ {n e}, e ∈ s.table n → e.address < s.next
  unique : ∀ {n m e f}, e ∈ s.table n → f ∈ s.table m → e.address = f.address → n = m ∧ e = f
  closed : ∀ {n e}, e ∈ s.table n → s.Covers e.kind
  nodup : ∀ n, ((s.table n).map TyInstance.type).Nodup

end TyTables

theorem TyInstance.type_eq (e : TyInstance) : e.type = e.kind.type := by
  cases e
  rfl

namespace TyTables

variable {s : TyTables} {n m : Nat} {e f : TyInstance} {k l : TyKind}

mutual

/-- Handles are equal exactly if they stand for the same type. -/
theorem WellFormed.equal_iff (h : s.WellFormed) : (e f : TyInstance) → s.Stored e → s.Stored f →
    (e.equal f = true ↔ e.type = f.type)
  | .mk a k, .mk b l, ⟨n, he⟩, ⟨m, hf⟩ => by
    have hkinds := WellFormed.kind_equal_iff h k l (h.closed he) (h.closed hf)
    simp only [TyInstance.equal, TyInstance.type, Bool.or_eq_true, beq_iff_eq, hkinds]
    refine ⟨fun hor => hor.elim (fun hab => ?_) id, Or.inr⟩
    obtain ⟨-, e⟩ := h.unique he hf hab
    cases e
    rfl

theorem WellFormed.kind_equal_iff (h : s.WellFormed) : (k l : TyKind) → s.Covers k → s.Covers l →
    (k.equal l = true ↔ k.type = l.type)
  | .int _, .int _, _, _ => by simp [TyKind.equal, TyKind.type]
  | .float _, .float _, _, _ => by simp [TyKind.equal, TyKind.type]
  | .ptr p, .ptr q, hp, hq => by
    have hpq := WellFormed.equal_iff h p q (hp p rfl) (hq q rfl)
    simp only [TyKind.equal, TyKind.type, Ty.ptr.injEq, hpq]
  | .int _, .float _, _, _ => by simp [TyKind.equal, TyKind.type]
  | .int _, .ptr _, _, _ => by simp [TyKind.equal, TyKind.type]
  | .float _, .int _, _, _ => by simp [TyKind.equal, TyKind.type]
  | .float _, .ptr _, _, _ => by simp [TyKind.equal, TyKind.type]
  | .ptr _, .int _, _, _ => by simp [TyKind.equal, TyKind.type]
  | .ptr _, .float _, _, _ => by simp [TyKind.equal, TyKind.type]

end

theorem WellFormed.address_eq_iff (h : s.WellFormed) (he : e ∈ s.table n) (hf : f ∈ s.table n) :
    e.address = f.address ↔ e.type = f.type := by
  constructor
  · intro ha
    rw [(h.unique he hf ha).2]
  · intro ht
    rw [List.inj_on_of_nodup_map (h.nodup n) he hf ht]

/-- A table hands out the object that it has of a type, or makes one if it has none. -/
theorem WellFormed.intern_cases (h : s.WellFormed) (n : Nat) (hk : s.Covers k) :
    (∃ e ∈ s.table n, e.type = k.type ∧ s.intern n k = (e, s)) ∨
      ((∀ e ∈ s.table n, e.type ≠ k.type) ∧ s.intern n k = (.mk s.next k, s.insert n k)) := by
  have hiff (e : TyInstance) (he : e ∈ s.table n) :
      e.kind.equal k = true ↔ e.type = k.type := by
    rw [e.type_eq]
    exact h.kind_equal_iff _ _ (h.closed he) hk
  cases hl : s.lookup? n k with
  | some e =>
    have he : e ∈ s.table n := List.mem_of_find?_eq_some hl
    have hequal := List.find?_some (p := fun e : TyInstance => e.kind.equal k) hl
    exact .inl ⟨e, he, (hiff e he).1 hequal, by simp only [intern, hl]⟩
  | none =>
    refine .inr ⟨fun e he ht => ?_, by simp only [intern, hl]⟩
    exact List.find?_eq_none.1 hl e he ((hiff e he).2 ht)

theorem mem_insert_iff : e ∈ (s.insert n k).table m ↔
    e ∈ s.table m ∨ (m = n ∧ e = .mk s.next k) := by
  by_cases hm : m = n
  · subst hm
    simp [insert]
  · simp [insert, hm]

theorem Stored.insert (h : s.Stored e) (n : Nat) (k : TyKind) : (s.insert n k).Stored e := by
  obtain ⟨m, he⟩ := h
  exact ⟨m, mem_insert_iff.2 (.inl he)⟩

theorem Covers.insert (h : s.Covers l) (n : Nat) (k : TyKind) : (s.insert n k).Covers l :=
  fun p hp => (h p hp).insert n k

theorem WellFormed.insert (h : s.WellFormed) (hk : s.Covers k)
    (hnew : ∀ e ∈ s.table n, e.type ≠ k.type) : (s.insert n k).WellFormed where
  address_lt := by
    intro m e he
    show e.address < s.next + 1
    rcases mem_insert_iff.1 he with he | ⟨-, rfl⟩
    · exact Nat.lt_succ_of_lt (h.address_lt he)
    · exact Nat.lt_succ_self _
  unique := by
    intro m m' e f he hf ha
    rcases mem_insert_iff.1 he with he | ⟨rfl, rfl⟩
    · rcases mem_insert_iff.1 hf with hf | ⟨-, rfl⟩
      · exact h.unique he hf ha
      · exact absurd ha (Nat.ne_of_lt (h.address_lt he))
    · rcases mem_insert_iff.1 hf with hf | ⟨rfl, rfl⟩
      · exact absurd ha.symm (Nat.ne_of_lt (h.address_lt hf))
      · exact ⟨rfl, rfl⟩
  closed := by
    intro m e he
    rcases mem_insert_iff.1 he with he | ⟨-, rfl⟩
    · exact (h.closed he).insert n k
    · exact hk.insert n k
  nodup := by
    intro m
    by_cases hm : m = n
    · subst hm
      have htable : (s.insert m k).table m = s.table m ++ [.mk s.next k] := by
        simp [TyTables.insert]
      rw [htable, List.map_append, List.nodup_append]
      refine ⟨h.nodup m, by simp, ?_⟩
      intro t ht u hu
      obtain ⟨e, he, rfl⟩ := List.mem_map.1 ht
      obtain rfl := List.mem_singleton.1 hu
      exact hnew e he
    · have htable : (s.insert n k).table m = s.table m := by simp [TyTables.insert, hm]
      rw [htable]
      exact h.nodup m

end TyTables

/-- A call of an interner: the number of the table, what it was asked for, the handle it gave, and
the handle that the table of types gave. -/
structure InternCall where
  table : Nat
  kind : TyKind
  result : TyInstance
  handle : TyHandle

/-- Calls in a row, latest first. A pointer may point to whatever any table has given before. -/
inductive InternCalls : TyTables → (Nat → TyInterner) → List InternCall → Prop
  | start : InternCalls {} (fun n => { table := n }) []
  | intern {s : TyTables} {interners : Nat → TyInterner} {calls : List InternCall} (n : Nat)
      (k : TyKind) (hk : ∀ p, k = .ptr p → ∃ c ∈ calls, c.result = p)
      (h : InternCalls s interners calls) :
      InternCalls (s.intern n k).2
        (Function.update interners n ((interners n).intern k.type).2)
        (⟨n, k, (s.intern n k).1, ((interners n).intern k.type).1⟩ :: calls)

namespace InternCalls

variable {s : TyTables} {interners : Nat → TyInterner} {calls : List InternCall}
  {c d : InternCall} {n : Nat}

def asked (calls : List InternCall) (n : Nat) : List Ty :=
  (calls.filter (·.table = n)).map (·.kind.type)

theorem handed (h : InternCalls s interners calls) :
    TyInterner.Handed interners (calls.map (·.handle)) := by
  induction h with
  | start => exact .start
  | intern n k _ _ ih => exact .intern n k.type ih

structure Sound (s : TyTables) (interners : Nat → TyInterner) (calls : List InternCall) : Prop where
  wellFormed : s.WellFormed
  mem : ∀ c ∈ calls, c.result ∈ s.table c.table
  type_eq : ∀ c ∈ calls, c.result.type = c.kind.type
  types : ∀ n, (interners n).types = (s.table n).map TyInstance.type
  asked : ∀ n t, t ∈ (s.table n).map TyInstance.type ↔ t ∈ asked calls n
  handle : ∀ c ∈ calls, c.handle.table = c.table ∧ c.handle.type = c.kind.type

theorem mem_asked_cons {t : Ty} :
    t ∈ asked (c :: calls) n ↔ (c.table = n ∧ t = c.kind.type) ∨ t ∈ asked calls n := by
  by_cases hc : c.table = n
  · simp [asked, hc]
  · simp [asked, hc]

theorem Sound.found (h : Sound s interners calls) (hmem : c.result ∈ s.table c.table)
    (htype : c.result.type = c.kind.type)
    (hhandle : c.handle.table = c.table ∧ c.handle.type = c.kind.type) :
    Sound s interners (c :: calls) where
  wellFormed := h.wellFormed
  mem := List.forall_mem_cons.2 ⟨hmem, h.mem⟩
  type_eq := List.forall_mem_cons.2 ⟨htype, h.type_eq⟩
  types := h.types
  asked := by
    intro n t
    rw [mem_asked_cons, ← h.asked]
    refine ⟨Or.inr, fun hor => hor.elim ?_ id⟩
    intro given
    obtain ⟨rfl, rfl⟩ := given
    exact List.mem_map.2 ⟨c.result, hmem, htype⟩
  handle := List.forall_mem_cons.2 ⟨hhandle, h.handle⟩

theorem Sound.inserted (h : Sound s interners calls) (hk : s.Covers c.kind)
    (hnew : ∀ e ∈ s.table c.table, e.type ≠ c.kind.type) (hresult : c.result = .mk s.next c.kind)
    (hhandle : c.handle.table = c.table ∧ c.handle.type = c.kind.type) :
    Sound (s.insert c.table c.kind) (Function.update interners c.table
      { interners c.table with types := (interners c.table).types ++ [c.kind.type] })
      (c :: calls) where
  wellFormed := h.wellFormed.insert hk hnew
  mem := List.forall_mem_cons.2 ⟨TyTables.mem_insert_iff.2 (.inr ⟨rfl, hresult⟩),
    fun d hd => TyTables.mem_insert_iff.2 (.inl (h.mem d hd))⟩
  type_eq := List.forall_mem_cons.2 ⟨by rw [hresult, TyInstance.type], h.type_eq⟩
  types := by
    intro n
    by_cases hn : n = c.table
    · subst hn
      simp [TyTables.insert, h.types, TyInstance.type]
    · simp [TyTables.insert, h.types, hn]
  asked := by
    intro n t
    rw [mem_asked_cons, ← h.asked]
    simp only [List.mem_map, TyTables.mem_insert_iff]
    constructor
    · intro given
      obtain ⟨e, he | ⟨rfl, rfl⟩, rfl⟩ := given
      · exact .inr ⟨e, he, rfl⟩
      · exact .inl ⟨rfl, by rw [TyInstance.type]⟩
    · intro given
      obtain ⟨rfl, rfl⟩ | ⟨e, he, rfl⟩ := given
      · exact ⟨_, .inr ⟨rfl, rfl⟩, by rw [TyInstance.type]⟩
      · exact ⟨e, .inl he, rfl⟩
  handle := List.forall_mem_cons.2 ⟨hhandle, h.handle⟩

theorem sound (h : InternCalls s interners calls) : Sound s interners calls := by
  induction h with
  | start =>
    refine ⟨⟨?_, ?_, ?_, ?_⟩, ?_, ?_, ?_, ?_, ?_⟩ <;> simp [asked]
  | @intern s interners calls n k hk h ih =>
    have hcovers : s.Covers k := by
      intro p hp
      obtain ⟨c, hc, rfl⟩ := hk p hp
      exact ⟨c.table, ih.mem c hc⟩
    have htable : (interners n).table = n := h.handed.table_eq n
    rcases ih.wellFormed.intern_cases n hcovers with ⟨e, he, htype, hi⟩ | ⟨hnew, hi⟩
    · have hmem : k.type ∈ (interners n).types := by
        rw [ih.types, ← htype]
        exact List.mem_map_of_mem he
      have hsame : ((interners n).intern k.type).2 = interners n := by
        simp [TyInterner.intern, hmem]
      rw [hi, hsame, Function.update_eq_self]
      exact ih.found (c := ⟨n, k, e, ((interners n).intern k.type).1⟩) he htype ⟨htable, rfl⟩
    · have hmem : k.type ∉ (interners n).types := by
        rw [ih.types]
        intro hmem
        obtain ⟨e, he, ht⟩ := List.mem_map.1 hmem
        exact hnew e he ht
      have hgrown : ((interners n).intern k.type).2 =
          { interners n with types := (interners n).types ++ [k.type] } := by
        simp [TyInterner.intern, hmem]
      rw [hi, hgrown]
      exact ih.inserted (c := ⟨n, k, .mk s.next k, ((interners n).intern k.type).1⟩) hcovers hnew
        rfl ⟨htable, rfl⟩

theorem equal_iff (h : InternCalls s interners calls) (hc : c ∈ calls) (hd : d ∈ calls) :
    c.result.equal d.result = true ↔ c.kind.type = d.kind.type := by
  have hs := h.sound
  rw [← hs.type_eq c hc, ← hs.type_eq d hd]
  exact hs.wellFormed.equal_iff _ _ ⟨_, hs.mem c hc⟩ ⟨_, hs.mem d hd⟩

theorem sameInstance_iff (h : InternCalls s interners calls) (hc : c ∈ calls) (hd : d ∈ calls) :
    c.result.sameInstance d.result = true ↔
      c.table = d.table ∧ c.kind.type = d.kind.type := by
  have hs := h.sound
  have hmem := hs.mem d hd
  rw [TyInstance.sameInstance, beq_iff_eq, ← hs.type_eq c hc, ← hs.type_eq d hd]
  constructor
  · intro ha
    obtain ⟨ht, e⟩ := hs.wellFormed.unique (hs.mem c hc) hmem ha
    exact ⟨ht, by rw [e]⟩
  · intro given
    obtain ⟨ht, hty⟩ := given
    rw [← ht] at hmem
    exact (hs.wellFormed.address_eq_iff (hs.mem c hc) hmem).2 hty

theorem length_table (h : InternCalls s interners calls) (n : Nat) :
    (s.table n).length = (asked calls n).dedup.length := by
  have hs := h.sound
  have hperm : ((s.table n).map TyInstance.type).Perm (asked calls n).dedup := by
    rw [List.perm_ext_iff_of_nodup (hs.wellFormed.nodup n) (List.nodup_dedup _)]
    intro t
    rw [hs.asked, List.mem_dedup]
  rw [← List.length_map TyInstance.type, hperm.length_eq]

theorem handle_sameInstance_iff (h : InternCalls s interners calls) (hc : c ∈ calls)
    (hd : d ∈ calls) : c.handle.sameInstance d.handle = true ↔
      c.table = d.table ∧ c.kind.type = d.kind.type := by
  have hs := h.sound
  have hget (e : InternCall) (he : e ∈ calls) :
      (interners e.table).types[e.handle.index]? = some e.kind.type := by
    have hhandle := h.handed.getElem?_eq (List.mem_map_of_mem he)
    rwa [(hs.handle e he).1, (hs.handle e he).2] at hhandle
  have hnodup : (interners d.table).types.Nodup := by
    rw [hs.types]
    exact hs.wellFormed.nodup _
  have hgetc := hget c hc
  have hgetd := hget d hd
  rw [TyHandle.sameInstance, Bool.and_eq_true, beq_iff_eq, beq_iff_eq, (hs.handle c hc).1,
    (hs.handle d hd).1]
  constructor
  · intro given
    obtain ⟨ht, hi⟩ := given
    rw [ht, hi, hgetd] at hgetc
    exact ⟨ht, (Option.some.inj hgetc).symm⟩
  · intro given
    obtain ⟨ht, hty⟩ := given
    rw [ht, hty] at hgetc
    obtain ⟨hlt, -⟩ := List.getElem?_eq_some_iff.1 hgetc
    exact ⟨ht, (List.getElem?_inj hlt hnodup).1 (hgetc.trans hgetd.symm)⟩

theorem handle_equal_iff (h : InternCalls s interners calls) (hc : c ∈ calls) (hd : d ∈ calls) :
    c.handle.equal d.handle = true ↔ c.kind.type = d.kind.type := by
  have hs := h.sound
  rw [h.handed.equal_iff (List.mem_map_of_mem hc) (List.mem_map_of_mem hd), (hs.handle c hc).2,
    (hs.handle d hd).2]

/-- However often interners are asked, and for pointers to whatever handles: two handles are those
of one object exactly if the same interner was asked for the same type; an interner has as many
objects as it was asked for different types; and handles are equal exactly if their types are, so
that equality does not tell where they come from. The interners that keep types only agree in all
this. -/
theorem canonical (h : InternCalls s interners calls) :
    (∀ c ∈ calls, c.result.type = c.kind.type) ∧
    (∀ c ∈ calls, ∀ d ∈ calls, c.table = d.table →
      (c.result.sameInstance d.result = true ↔ c.kind.type = d.kind.type)) ∧
    (∀ c ∈ calls, ∀ d ∈ calls, c.table ≠ d.table → c.result.sameInstance d.result = false) ∧
    (∀ n, (s.table n).length = (asked calls n).dedup.length) ∧
    (∀ c ∈ calls, ∀ d ∈ calls, (c.result.equal d.result = true ↔ c.kind.type = d.kind.type)) ∧
    Equivalence (fun c d : { c // c ∈ calls } => c.1.result.equal d.1.result = true) ∧
    (∀ c ∈ calls, ∀ d ∈ calls, c.handle.type = c.result.type ∧
      c.handle.sameInstance d.handle = c.result.sameInstance d.result ∧
      c.handle.equal d.handle = c.result.equal d.result) ∧
    ∀ n, (interners n).size = (s.table n).length := by
  have hs := h.sound
  refine ⟨hs.type_eq, fun c hc d hd ht => ?_, fun c hc d hd ht => ?_, h.length_table,
    fun c hc d hd => h.equal_iff hc hd, ?_, fun c hc d hd => ⟨?_, ?_, ?_⟩, fun n => ?_⟩
  · rw [h.sameInstance_iff hc hd, and_iff_right ht]
  · rw [← Bool.not_eq_true, h.sameInstance_iff hc hd]
    exact fun hand => ht hand.1
  · refine ⟨fun c => (h.equal_iff c.2 c.2).2 rfl, fun {c d} hcd => ?_, fun {c d e} hcd hde => ?_⟩
    · exact (h.equal_iff d.2 c.2).2 ((h.equal_iff c.2 d.2).1 hcd).symm
    · have hce := ((h.equal_iff c.2 d.2).1 hcd).trans ((h.equal_iff d.2 e.2).1 hde)
      exact (h.equal_iff c.2 e.2).2 hce
  · rw [(hs.handle c hc).2, hs.type_eq c hc]
  · rw [Bool.eq_iff_iff, h.handle_sameInstance_iff hc hd, h.sameInstance_iff hc hd]
  · rw [Bool.eq_iff_iff, h.handle_equal_iff hc hd, h.equal_iff hc hd]
  · rw [TyInterner.size, hs.types, List.length_map]

def number (address : Nat) : TyInstance := .mk address (.int 64)

def foreignPointees : List InternCall :=
  [⟨0, .ptr (number 0), .mk 2 (.ptr (number 1)), ⟨0, 1, .ptr (.int 64)⟩⟩,
    ⟨0, .ptr (number 1), .mk 2 (.ptr (number 1)), ⟨0, 1, .ptr (.int 64)⟩⟩,
    ⟨1, .int 64, number 1, ⟨1, 0, .int 64⟩⟩,
    ⟨0, .int 64, number 0, ⟨0, 0, .int 64⟩⟩]

theorem calls_foreignPointees : ∃ s interners, InternCalls s interners foreignPointees := by
  have hknown (a : Nat) (calls : List InternCall) (h : ∃ c ∈ calls, c.result = number a) :
      ∀ p, TyKind.ptr (number a) = .ptr p → ∃ c ∈ calls, c.result = p := by
    intro p e
    cases e
    exact h
  exact ⟨_, _, .intern 0 (.ptr (number 0)) (hknown 0 _ ⟨_, .tail _ (.tail _ (.head _)), rfl⟩)
    (.intern 0 (.ptr (number 1)) (hknown 1 _ ⟨_, .head _, rfl⟩)
      (.intern 1 (.int 64) (by simp) (.intern 0 (.int 64) (by simp) .start)))⟩

theorem canonical_foreignPointees : ∃ s interners, InternCalls s interners foreignPointees ∧
    (number 0).sameInstance (number 1) = false ∧ (number 0).equal (number 1) = true ∧
    (s.table 0).length = 2 := by
  obtain ⟨s, interners, h⟩ := calls_foreignPointees
  obtain ⟨-, -, hapart, hlength, hequal, -⟩ := h.canonical
  refine ⟨s, interners, h, ?_, ?_, ?_⟩
  · exact hapart ⟨0, .int 64, number 0, ⟨0, 0, .int 64⟩⟩ (by simp [foreignPointees])
      ⟨1, .int 64, number 1, ⟨1, 0, .int 64⟩⟩ (by simp [foreignPointees]) (by decide)
  · exact (hequal ⟨0, .int 64, number 0, ⟨0, 0, .int 64⟩⟩ (by simp [foreignPointees])
      ⟨1, .int 64, number 1, ⟨1, 0, .int 64⟩⟩ (by simp [foreignPointees])).2 rfl
  · rw [hlength]
    decide

end InternCalls

end BrilIR
