/-
# Accesses to two stores

Two accesses go alike along a relation of their stores when from related
stores they give the same answer and leave related stores. This and other
relations of accesses pass from the parts of an access to the whole
(`Access.Compositional`), so what relates the reads of two stores relates
their decodings. With a store beside itself it says what a decoding keeps and
how it fails.

Key definitions: `Access.Alike`, `Access.Faults`, `Access.Compositional`,
`Access.Malformed`.
Key theorems: `Access.split_fault`, `Access.decode_related`,
`Access.decode_alike`, `Access.decode_invariant`, `Access.decode_faults`,
`Access.decode_next`.
-/
import Intcode.Instruction

namespace Intcode
namespace Access

variable {σ τ α β : Type}

/-- From related stores both accesses give the same answer and leave related
stores. -/
def Alike (R : σ → τ → Prop) (x : Access σ α) (y : Access τ α) : Prop :=
  ∀ s t, R s t → (x.on s).1 = (y.on t).1 ∧ R (x.on s).2 (y.on t).2

/-- From a store with this property the access leaves one with it, and fails, if it
does, by one of these faults. -/
def Faults (P : σ → Prop) (F : Fault → Prop) (x : Access σ α) : Prop :=
  ∀ s, P s → P (x.on s).2 ∧ ∀ f, (x.on s).1 = .error f → F f

/-- A relation of accesses to two stores that passes from the parts of an
access to the whole, and that holds of answers and of the faults `F`. -/
structure Compositional (F : Fault → Prop)
    (C : ∀ {α : Type}, Access σ α → Access τ α → Prop) : Prop where
  answer : ∀ {α : Type} (a : α), C (pure a) (pure a)
  fault : ∀ {α : Type} (f : Fault), F f → C (Access.fail f : Access σ α) (Access.fail f)
  bind : ∀ {α β : Type} {x : Access σ α} {y : Access τ α} {f : α → Access σ β}
    {g : α → Access τ β}, C x y → (∀ a, C (f a) (g a)) → C (x >>= f) (y >>= g)

theorem alike_compositional (R : σ → τ → Prop) :
    Compositional (fun _ => True) (fun {_} x y => Alike R x y) where
  answer _ _ _ h := ⟨rfl, h⟩
  fault _ _ _ _ h := ⟨rfl, h⟩
  bind {_ _ x y f g} hx hf s t h := by
    obtain ⟨ha, hs⟩ := hx s t h
    simp only [bind_apply]
    rcases hxs : x.on s with ⟨e | a, s'⟩ <;> rcases hyt : y.on t with ⟨e' | a', t'⟩ <;>
      simp only [hxs, hyt, reduceCtorEq, Except.error.injEq, Except.ok.injEq] at ha hs ⊢
    · exact ⟨ha, hs⟩
    · rw [← ha]
      exact hf a s' t' hs

theorem faults_compositional (P : σ → Prop) (F : Fault → Prop) :
    Compositional (σ := σ) (τ := τ) F (fun {_} x _ => Faults P F x) where
  answer _ _ hs := ⟨hs, by simp⟩
  fault f hf _ hs := by
    refine ⟨hs, fun g h => ?_⟩
    cases h
    exact hf
  bind {_ _ x y f g} hx hf s hs := by
    obtain ⟨hP, hF⟩ := hx s hs
    rw [bind_apply]
    rcases hxs : x.on s with ⟨e | a, s'⟩ <;> rw [hxs] at hP hF
    · refine ⟨hP, fun g h => ?_⟩
      cases h
      exact hF e rfl
    · exact hf a s' hP

/-! ### Decodings -/

/-- A fault that decoding finds in an instruction, its reads apart: the word
is malformed, or the address that it writes to is immediate or negative. -/
inductive Malformed : Fault → Prop where
  | word {word : Int} {f : Fault} (h : Word.split word = .error f) : Malformed f
  | immediate (operand : Nat) (word pointer : Int) : Malformed (.immediateTarget operand word pointer)
  | negative (address word pointer : Int) : Malformed (.negativeTarget address word pointer)

/-- A word that cannot be split is no instruction or has a digit that is no
mode. Its operands have not been looked at. -/
theorem split_fault {word : Int} {f : Fault} (h : Word.split word = .error f) :
    (f.kind = .invalidInstruction ∨ f.kind = .invalidMode) ∧
      ∀ operand word pointer, f ≠ .immediateTarget operand word pointer := by
  unfold Word.split at h
  split at h
  · cases h; simp [Fault.kind]
  · split at h
    · cases h; simp [Fault.kind]
    · dsimp only at h
      split at h
      · cases h; simp [Fault.kind]
      · cases h
      · split at h <;> cases h
        simp [Fault.kind]

theorem Malformed.kind {f : Fault} (h : Malformed f) :
    f.kind = .invalidInstruction ∨ f.kind = .invalidMode ∨ f.kind = .addressError := by
  cases h with
  | word h => rcases (split_fault h).1 with hk | hk <;> simp [hk]
  | immediate operand word pointer => simp [Fault.kind]
  | negative address word pointer => simp [Fault.kind]

section Decode

variable {F : Fault → Prop} {C : ∀ {α : Type}, Access σ α → Access τ α → Prop}
variable {read : Int → Access σ Int} {read' : Int → Access τ Int}

theorem operandValue_related (hC : Compositional F C) (h : ∀ a, C (read a) (read' a)) (base : Int)
    (mode : Mode) (literalAt : Int) :
    C (operandValue read base mode literalAt) (operandValue read' base mode literalAt) := by
  refine hC.bind (h literalAt) fun literal => ?_
  cases mode with
  | position => exact h literal
  | immediate => exact hC.answer literal
  | relative => exact h (base + literal)

theorem operandTarget_related (hC : Compositional F C) (h : ∀ a, C (read a) (read' a))
    (base : Int) {word pointer : Int} {index : Nat} (mode : Mode)
    (hi : F (.immediateTarget (index + 1) word pointer))
    (hn : ∀ a, F (.negativeTarget a word pointer)) :
    C (operandTarget read base word pointer index mode)
      (operandTarget read' base word pointer index mode) := by
  have checked (a : Int) : C
      (if a < 0 then Access.fail (.negativeTarget a word pointer) else pure a : Access σ Int)
      (if a < 0 then Access.fail (.negativeTarget a word pointer) else pure a) := by
    split
    · exact hC.fault _ (hn a)
    · exact hC.answer a
  refine hC.bind (h _) fun literal => ?_
  cases mode with
  | position => exact checked literal
  | immediate => exact hC.fault _ hi
  | relative => exact checked (base + literal)

/-- An operation takes the values of the operands that it reads and the address of
the one that it writes to. -/
theorem resolve_related (hC : Compositional F C) {value target : Nat → Access σ Int}
    {value' target' : Nat → Access τ Int} (op : Opcode)
    (hv : ∀ i, op.operands[i]? = some .read → C (value i) (value' i))
    (ht : ∀ i, op.operands[i]? = some .write → C (target i) (target' i)) :
    C (resolve value target op) (resolve value' target' op) := by
  cases op with
  | add | multiply | lessThan | equals =>
    exact hC.bind (hv 0 rfl) fun a => hC.bind (hv 1 rfl) fun b =>
      hC.bind (ht 2 rfl) fun dst => hC.answer _
  | input => exact hC.bind (ht 0 rfl) fun dst => hC.answer _
  | output | adjustRelativeBase => exact hC.bind (hv 0 rfl) fun a => hC.answer _
  | jumpIfTrue | jumpIfFalse =>
    exact hC.bind (hv 0 rfl) fun a => hC.bind (hv 1 rfl) fun b => hC.answer _
  | halt => exact hC.answer _

/-- What relates the reads of two stores relates their decodings. -/
theorem decode_related (hC : Compositional F C) (hF : ∀ f, Malformed f → F f)
    (h : ∀ a, C (read a) (read' a)) (base pointer : Int) :
    C (decode read base pointer) (decode read' base pointer) := by
  refine hC.bind (h pointer) fun word => hC.bind ?_ fun (op, modes) => ?_
  · rcases hw : Word.split word with f | a
    · exact hC.fault f (hF f (.word hw))
    · exact hC.answer a
  · refine hC.bind (resolve_related hC op (fun i _ => ?_) fun i _ => ?_) fun i => hC.answer _
    · exact operandValue_related hC h base _ _
    · exact operandTarget_related hC h base _ (hF _ (.immediate ..)) fun a => hF _ (.negative ..)

/-- Stores that are read alike are decoded alike. -/
theorem decode_alike {R : σ → τ → Prop} (h : ∀ a, Alike R (read a) (read' a)) (base pointer : Int) :
    Alike R (decode read base pointer) (decode read' base pointer) :=
  decode_related (alike_compositional R) (fun _ _ => trivial) h base pointer

/-- What every read keeps, a decoding keeps. -/
theorem decode_invariant {P : σ → Prop} (h : ∀ a s, P s → P ((read a).on s).2)
    (base pointer : Int) {s : σ} (hs : P s) : P ((decode read base pointer).on s).2 := by
  have hread (a : Int) : Alike (fun s t => s = t ∧ P s) (read a) (read a) := by
    rintro s _ ⟨rfl, hs⟩
    exact ⟨rfl, rfl, h a s hs⟩
  exact (decode_alike hread base pointer s s ⟨rfl, hs⟩).2.2

/-- A decoding fails by the faults of its reads and by those that it finds
itself. -/
theorem decode_faults {P : σ → Prop} (hF : ∀ f, Malformed f → F f) (h : ∀ a, Faults P F (read a))
    (base pointer : Int) : Faults P F (decode read base pointer) :=
  @decode_related _ _ F _ read read (faults_compositional P F) hF h base pointer

/-- Once its word is split, an instruction is not decoded for the faults of its
reads and of the operands that it writes to. -/
theorem resolve_faults {P : σ → Prop} {word pointer : Int} (h : ∀ a, Faults P F (read a))
    (hi : ∀ i, F (.immediateTarget i word pointer)) (hn : ∀ a, F (.negativeTarget a word pointer))
    (base : Int) (op : Opcode) (modes : List Mode) :
    Faults P F (resolve (fun i => operandValue read base (Word.modeAt modes i) (pointer + 1 + i))
      (fun i => operandTarget read base word pointer i (Word.modeAt modes i)) op) := by
  have hC : Compositional (σ := σ) (τ := σ) F (fun {_} x _ => Faults P F x) :=
    faults_compositional P F
  let value (i : Nat) := operandValue read base (Word.modeAt modes i) (pointer + 1 + i)
  let target (i : Nat) := operandTarget read base word pointer i (Word.modeAt modes i)
  have hv (i : Nat) : Faults P F (value i) := @operandValue_related _ _ F _ read read hC h base _ _
  have ht (i : Nat) : Faults P F (target i) :=
    @operandTarget_related _ _ F _ read read hC h base _ _ _ _ (hi _) hn
  exact @resolve_related _ _ F _ hC value target value target op (fun i _ => hv i) fun i _ => ht i

end Decode

/-- An access that answers has answered in its first part. -/
theorem bind_ok {x : Access σ α} {f : α → Access σ β} {s t : σ} {b : β}
    (h : (x >>= f).on s = (.ok b, t)) :
    ∃ a s', x.on s = (.ok a, s') ∧ (f a).on s' = (.ok b, t) := by
  rw [bind_apply] at h
  rcases hx : x.on s with ⟨e | a, s'⟩ <;> rw [hx] at h
  · cases h
  · exact ⟨a, s', rfl, h⟩

/-- After an answer an access goes on with it. -/
theorem bind_on {x : Access σ α} {f : α → Access σ β} {s s' : σ} {a : α}
    (h : x.on s = (.ok a, s')) : (x >>= f).on s = (f a).on s' := by
  rw [bind_apply, h]

section Word

variable {read : Int → Access σ Int} {base pointer word : Int} {s s' : σ}

/-- A word that cannot be split is not decoded further. -/
theorem decode_malformed {f : Fault} (hw : (read pointer).on s = (.ok word, s'))
    (hs : Word.split word = .error f) : (decode read base pointer).on s = (.error f, s') := by
  have hl : (Access.lift (Word.split word)).on s' = (.error f, s') := by rw [hs]; rfl
  refine (bind_on hw).trans ?_
  rw [bind_apply, hl]

/-- After its word an instruction is decoded by resolving its operation. -/
theorem decode_split {op : Opcode} {modes : List Mode} (hw : (read pointer).on s = (.ok word, s'))
    (hs : Word.split word = .ok (op, modes)) :
    (decode read base pointer).on s =
      (resolve (fun i => operandValue read base (Word.modeAt modes i) (pointer + 1 + i))
        (fun i => operandTarget read base word pointer i (Word.modeAt modes i)) op >>=
          fun i => pure (i, pointer + 1 + op.operands.length)).on s' := by
  have hl : (Access.lift (Word.split word)).on s' = (.ok (op, modes), s') := by rw [hs]; rfl
  exact (bind_on hw).trans (bind_on hl)

/-- Once its word is split, an instruction is not decoded for the faults of its
reads and of the operand that it writes to. -/
theorem decode_stopped {P : σ → Prop} {F : Fault → Prop} {op : Opcode} {modes : List Mode}
    {f : Fault} (hw : (read pointer).on s = (.ok word, s'))
    (hs : Word.split word = .ok (op, modes)) (hP : P s') (hread : ∀ a, Faults P F (read a))
    (hi : ∀ i, F (.immediateTarget i word pointer)) (hn : ∀ a, F (.negativeTarget a word pointer))
    (hf : ((decode read base pointer).on s).1 = .error f) : F f := by
  have stops := resolve_faults hread hi hn base op modes s' hP
  rw [decode_split hw hs, bind_apply] at hf
  split at hf
  · rename_i hresolved
    cases hf
    exact stops.2 f (congrArg Prod.fst hresolved)
  · cases hf

end Word

/-- What an operation is resolved to is an instruction of the operation. -/
theorem resolve_opcode {value target : Nat → Access σ Int} {op : Opcode} {i : Instruction}
    {s t : σ} (h : (resolve value target op).on s = (.ok i, t)) : i.opcode = op := by
  cases op with
  | add | multiply | lessThan | equals =>
    obtain ⟨a, _, -, h⟩ := bind_ok h
    obtain ⟨b, _, -, h⟩ := bind_ok h
    obtain ⟨dst, _, -, h⟩ := bind_ok h
    cases h
    rfl
  | input | output | adjustRelativeBase =>
    obtain ⟨a, _, -, h⟩ := bind_ok h
    cases h
    rfl
  | jumpIfTrue | jumpIfFalse =>
    obtain ⟨a, _, -, h⟩ := bind_ok h
    obtain ⟨b, _, -, h⟩ := bind_ok h
    cases h
    rfl
  | halt =>
    cases h
    rfl

/-- An instruction ends as many cells after its word as its operation has
operands. -/
theorem decode_next {read : Int → Access σ Int} {base pointer next : Int} {i : Instruction}
    {s t : σ} (h : (decode read base pointer).on s = (.ok (i, next), t)) :
    next = pointer + 1 + i.opcode.operands.length := by
  obtain ⟨word, s₁, -, h⟩ := bind_ok h
  obtain ⟨⟨op, modes⟩, s₂, -, h⟩ := bind_ok h
  obtain ⟨i', s₃, hi, h⟩ := bind_ok h
  simp only [pure_apply, Prod.mk.injEq, Except.ok.injEq] at h
  obtain ⟨⟨rfl, rfl⟩, -⟩ := h
  rw [resolve_opcode hi]

end Access
end Intcode
