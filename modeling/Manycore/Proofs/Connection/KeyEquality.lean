import Manycore.Proofs.Compiler.FilterTables
import Manycore.Proofs.Connection.Inhibition
import Manycore.Proofs.Connection.Reduction
import Manycore.Proofs.Keyspace.Run

/-! # Equality of keys

Streams, receivers and all that they are made of are keys of tables, and a table finds a key by its
hash. It finds the right one if equality is an equivalence and equal keys give the same data to the
hash function, whatever numbers they hold. Matrices count the zeros as one number and the NaNs as
one, filters only the zeros, solvers nothing.
-/

namespace Manycore

open List (Forall₂)

/-- One value that a key gives to a hash function. -/
inductive HashDatum where
  | byte (value : UInt8)
  | word (value : UInt32)
  | long (value : UInt64)
  /-- A count, an index or a handle. -/
  | count (value : Nat)
  /-- Which of several forms the key has. -/
  | form (index : Nat)
  | text (value : String)
  deriving DecidableEq

/-- What an optional part gives: whether it is there, and then its own data. -/
def optionHashData {α : Type} (data : α → List HashDatum) : Option α → List HashDatum
  | none => [.form 0]
  | some x => .form 1 :: data x

def Slice.hashData (s : Slice) : List HashDatum := [.count s.start, .count s.stop]

def Matrix.hashData (m : Matrix) : List HashDatum :=
  .count m.nRows :: .count m.nCols :: m.entries.map fun x => .long x.contentBits

def Solver.hashData (s : Solver) : List HashDatum := [.text s.name, .long s.regularization.bits]

def Filter.hashData (f : Filter) : List HashDatum :=
  [.byte 0, .long f.tau.exactBits, .byte (if f.accumulatory then 1 else 0)]

def Inlet.hashData : Inlet → List HashDatum
  | standardInput => [.form 0]
  | globalInhibition => [.form 1]
  | learningRule rule => [.form 2, .word rule.number]

def Receiver.hashData (r : Receiver) : List HashDatum :=
  .word r.object.number :: (r.slice.hashData ++ r.inlet.hashData ++ r.filter.hashData)

/-- The function of a source that is sampled is left out, as it does not count for equality. -/
def Source.hashData : Source → List HashDatum
  | plain function =>
    .byte 0 :: optionHashData (fun handle => [.count handle]) (function.map (·.handle))
  | decoded points solver samples rule _ =>
    .byte 1 :: (points.hashData ++ solver.hashData ++ samples.hashData
      ++ optionHashData (fun r => [.word r.number]) rule)

/-- The width of a key and the bindings. Which layout the keyspace is on is left out. -/
def Keyspace.hashData (p : Pool) (k : Keyspace) : List HashDatum :=
  .word (.ofNat (p.layoutOf k).width) :: .count k.bindings.length ::
    k.bindings.flatMap fun (name, value) => [.text name, .long (.ofNat value)]

def Stream.hashData (p : Pool) (s : Stream) : List HashDatum :=
  .count s.width :: (s.transform.hashData ++ s.preSlice.hashData ++ s.postSlice.hashData
    ++ optionHashData (Keyspace.hashData p) s.keyspace ++ s.source.hashData)

/-- An equality that is one, with which the data for a hash agree. -/
structure LawfulKey {α : Type} (same : α → α → Bool) (hashData : α → List HashDatum) : Prop where
  equivalence : Equivalence fun x y => same x y = true
  hashData_eq : ∀ {x y}, same x y = true → hashData x = hashData y

namespace LawfulKey

variable {α κ : Type} {same : α → α → Bool} {hashData : α → List HashDatum}

theorem of_content (content : α → κ) (hsame : ∀ {x y}, same x y = true ↔ content x = content y)
    (hdata : ∀ {x y}, content x = content y → hashData x = hashData y) :
    LawfulKey same hashData where
  equivalence := equivalence_of_content content hsame
  hashData_eq h := hdata (hsame.mp h)

end LawfulKey

namespace Matrix

theorem same_iff_alike {a b : Matrix} :
    a.same b = true ↔ a.shape = b.shape ∧ Forall₂ Binary64.Alike a.entries b.entries := by
  rw [same_iff, content, content, Prod.mk.injEq]
  refine and_congr_right fun _ => ?_
  rw [← List.forall₂_eq_eq_eq, List.forall₂_map_left_iff, List.forall₂_map_right_iff]
  exact iff_of_eq (congrArg (Forall₂ · a.entries b.entries)
    (funext₂ fun _ _ => propext Binary64.contentBits_eq_iff))

theorem lawful : LawfulKey same hashData := by
  refine .of_content content same_iff fun {a b} h => ?_
  obtain ⟨hshape, hbits⟩ := Prod.mk.inj h
  obtain ⟨hrows, hcols⟩ := Shape.mk.inj hshape
  have hlongs := congrArg (List.map HashDatum.long) hbits
  rw [List.map_map, List.map_map] at hlongs
  exact congrArg₂ _ (congrArg _ hrows) (congrArg₂ _ (congrArg _ hcols) hlongs)

end Matrix

theorem Solver.same_iff {a b : Solver} : a.same b = true ↔ a = b := by
  obtain ⟨_, ⟨_⟩⟩ := a
  obtain ⟨_, ⟨_⟩⟩ := b
  simp [same, content]

theorem Solver.lawful : LawfulKey same hashData := .of_content id same_iff (congrArg hashData)

theorem Filter.same_iff {a b : Filter} : a.same b = true ↔
    (a.tau = b.tau ∨ a.tau.magnitudeBits = 0 ∧ b.tau.magnitudeBits = 0)
      ∧ a.accumulatory = b.accumulatory := by
  rw [same, decide_eq_true_eq, content, content, Prod.mk.injEq]
  refine and_congr_left fun _ => ⟨Binary64.eq_or_zeros_of_exactBits, ?_⟩
  rintro (htau | ⟨ha, hb⟩)
  · rw [htau]
  · rw [Binary64.exactBits, Binary64.exactBits, if_pos ha, if_pos hb]

/-- Two NaNs are one number in a matrix and two in a filter. -/
example : (Matrix.fill 1 1 .nan).same (.fill 1 1 ⟨0xfff8000000000000⟩) = true
    ∧ (Filter.mk .nan true).same ⟨⟨0xfff8000000000000⟩, true⟩ = false := by
  decide +kernel

theorem Filter.hashData_eq_of_content {a b : Filter} (h : a.content = b.content) :
    a.hashData = b.hashData := by
  obtain ⟨htau, haccumulatory⟩ := Prod.mk.inj h
  rw [hashData, hashData, htau, haccumulatory]

theorem Filter.lawful : LawfulKey same hashData :=
  .of_content content decide_eq_true_iff hashData_eq_of_content

theorem Receiver.lawful : LawfulKey same hashData := by
  refine .of_content content decide_eq_true_iff fun {a b} h => ?_
  simp only [content, Prod.mk.injEq] at h
  obtain ⟨hobject, hslice, hinlet, hfilter⟩ := h
  rw [hashData, hashData, hobject, hslice, hinlet, Filter.hashData_eq_of_content hfilter]

theorem Keyspace.lawful (p : Pool) :
    LawfulKey (fun k k' : Keyspace => decide (k = k')) (hashData p) :=
  .of_content id decide_eq_true_iff (congrArg (hashData p))

namespace Source

theorem hashData_eq_of_same {a b : Source} (h : a.same b = true) : a.hashData = b.hashData := by
  cases a with
  | plain f =>
      cases b with
      | plain g =>
          have hhandles : f.map (·.handle) = g.map (·.handle) := of_decide_eq_true h
          rw [hashData, hashData, hhandles]
      | decoded => cases h
  | decoded points solver samples rule =>
      cases b with
      | plain => cases h
      | decoded points' solver' samples' rule' =>
          simp only [same, Bool.and_eq_true, decide_eq_true_eq] at h
          obtain ⟨⟨⟨hpoints, hsolver⟩, hsamples⟩, rfl⟩ := h
          rw [hashData, hashData, Matrix.lawful.hashData_eq hpoints,
            Solver.lawful.hashData_eq hsolver, Matrix.lawful.hashData_eq hsamples]

theorem lawful : LawfulKey same hashData :=
  .of_content content same_iff fun h => hashData_eq_of_same (same_iff.mpr h)

end Source

namespace Stream

variable {s s' : Stream} {p q : Pool}

theorem lawful (p : Pool) : LawfulKey same (hashData p) where
  equivalence := equivalence_same
  hashData_eq := by
    intro s s' h
    simp only [same, Bool.and_eq_true, decide_eq_true_eq] at h
    obtain ⟨⟨⟨⟨⟨hwidth, htransform⟩, hpre⟩, hpost⟩, hkeyspace⟩, hsource⟩ := h
    rw [hashData, hashData, hwidth, Matrix.lawful.hashData_eq htransform, hpre, hpost, hkeyspace,
      Source.lawful.hashData_eq hsource]

/-- A layout keeps its width, so what a stream gives to a hash never changes. -/
theorem hashData_of_later (h : Pool.Later p q) (hin : ∀ k ∈ s.keyspace, k.In p) :
    s.hashData q = s.hashData p := by
  cases hkeyspace : s.keyspace with
  | none => simp only [hashData, hkeyspace, optionHashData]
  | some k =>
      have hwidth := (h.growsTo (hin k hkeyspace)).width
      simp only [hashData, hkeyspace, optionHashData, Keyspace.hashData, hwidth]

/-- Where two streams agree in their keyspaces, others in their place hide nothing. -/
theorem same_withKeyspace_iff (h : s.keyspace = s'.keyspace) {k k' : Keyspace} :
    (s.withKeyspace k).same (s'.withKeyspace k') = true ↔ k = k' ∧ s.same s' = true := by
  simp only [same_iff, content, withKeyspace, h, Prod.mk.injEq, Option.some.injEq]
  tauto

end Stream

/-- Over all numbers, the equality of everything that a tree uses for its keys is an equivalence, and
equal keys give the same data to a hash, now and later. Matrices are told apart but for zeros and
NaNs, filters but for zeros, solvers by every bit. Streams that are the same are so with a keyspace
put on them, and streams without one stay apart. -/
theorem tree_keys_lawful (p : Pool) :
    LawfulKey Matrix.same Matrix.hashData ∧ LawfulKey Solver.same Solver.hashData
      ∧ LawfulKey Filter.same Filter.hashData ∧ LawfulKey Source.same Source.hashData
      ∧ LawfulKey (fun k k' : Keyspace => decide (k = k')) (Keyspace.hashData p)
      ∧ LawfulKey Stream.same (Stream.hashData p) ∧ LawfulKey Receiver.same Receiver.hashData
      ∧ (∀ s : Stream, (∀ k ∈ s.keyspace, k.In p) → ∀ q, Pool.Later p q →
        s.hashData q = s.hashData p)
      ∧ (∀ a b : Matrix, a.same b = true ↔
        a.shape = b.shape ∧ Forall₂ Binary64.Alike a.entries b.entries)
      ∧ (∀ a b : Filter, a.same b = true ↔
        (a.tau = b.tau ∨ a.tau.magnitudeBits = 0 ∧ b.tau.magnitudeBits = 0)
          ∧ a.accumulatory = b.accumulatory)
      ∧ (∀ a b : Solver, a.same b = true ↔ a = b)
      ∧ (∀ s s' : Stream, s.same s' = true → ∀ k,
        (s.withKeyspace k).same (s'.withKeyspace k) = true)
      ∧ ∀ s s' : Stream, s.keyspace = none → s'.keyspace = none → s.same s' = false → ∀ k k',
        (s.withKeyspace k).same (s'.withKeyspace k') = false := by
  refine ⟨Matrix.lawful, Solver.lawful, Filter.lawful, Source.lawful, Keyspace.lawful p,
    Stream.lawful p, Receiver.lawful, fun s hin q hq => Stream.hashData_of_later hq hin,
    fun _ _ => Matrix.same_iff_alike, fun _ _ => Filter.same_iff, fun _ _ => Solver.same_iff, ?_, ?_⟩
  · intro s s' hsame k
    exact (Stream.same_withKeyspace_iff (Stream.keyspace_eq_of_same hsame)).mpr ⟨rfl, hsame⟩
  · intro s s' hs hs' hsame k k'
    rw [← Bool.not_eq_true] at hsame ⊢
    rw [Stream.same_withKeyspace_iff (hs.trans hs'.symm)]
    exact fun h => hsame h.2

end Manycore
