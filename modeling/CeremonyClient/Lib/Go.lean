import CeremonyClient.Lib.Bytes

set_option autoImplicit false

namespace GoSem

-- The wrapping texts, outermost first: errors.Wrap is a cons and errors.Is compares the innermost part.
structure GoError where
  chain : List String
deriving DecidableEq, Repr

def errorsNew (text : String) : GoError := ⟨[text]⟩

def GoError.wrap (cause : GoError) (text : String) : GoError := ⟨text :: cause.chain⟩

def errorsIs (cause sentinel : GoError) : Bool := sentinel.chain.isSuffixOf cause.chain

-- A returned error, a run-time panic, and a loop that still runs when its fuel is spent.
inductive Fault where
  | err (cause : GoError)
  | panic
  | outOfFuel
deriving DecidableEq, Repr

abbrev Go (α : Type) := Except Fault α

def raise {α : Type} (cause : GoError) : Go α := .error (.err cause)

def crash {α : Type} : Go α := .error .panic

-- if condition { return cause }
def failIf (condition : Prop) [Decidable condition] (cause : GoError) : Go Unit :=
  if condition then raise cause else .ok ()

def deref {α : Type} : Option α → Go α
  | none => crash
  | some value => .ok value

def index {α : Type} (items : List α) (position : Nat) : Go α := deref items[position]?

-- items[len(items)-back]
def indexFromEnd {α : Type} (items : List α) (back : Nat) : Go α :=
  if back ≤ items.length then index items (items.length - back) else crash

def slice {α : Type} (items : List α) (low high : Nat) : Go (List α) :=
  if low ≤ high ∧ high ≤ items.length then .ok ((items.drop low).take (high - low)) else crash

def sliceFrom {α : Type} (items : List α) (low : Nat) : Go (List α) :=
  if low ≤ items.length then .ok (items.drop low) else crash

-- A returned error becomes a value the caller can test; the other faults pass through.
def attempt {α : Type} : Go α → Go (Except GoError α)
  | .ok value => .ok (.ok value)
  | .error (.err cause) => .ok (.error cause)
  | .error .panic => .error .panic
  | .error .outOfFuel => .error .outOfFuel

def mapErr {α : Type} (change : GoError → GoError) : Go α → Go α
  | .error (.err cause) => raise (change cause)
  | result => result

def wrapErr {α : Type} (text : String) (run : Go α) : Go α := mapErr (fun cause => cause.wrap text) run

def replaceErr {α : Type} (cause : GoError) (run : Go α) : Go α := mapErr (fun _ => cause) run

-- binary.BigEndian: the readers panic on a short slice and ignore a longer tail.
def beUint32 (bytes : Bytes) : Go UInt32 :=
  if bytes.length < 4 then crash else .ok (UInt32.ofNat (setBytes (bytes.take 4)))

def beUint64 (bytes : Bytes) : Go UInt64 :=
  if bytes.length < 8 then crash else .ok (UInt64.ofNat (setBytes (bytes.take 8)))

def beUint16 (bytes : Bytes) : Go UInt16 := if bytes.length < 2 then crash else .ok (UInt16.ofNat (setBytes (bytes.take 2)))

def appendUint16 (bytes : Bytes) (value : UInt16) : Bytes := bytes ++ beBytes 2 value.toNat

def appendUint32 (bytes : Bytes) (value : UInt32) : Bytes := bytes ++ beBytes 4 value.toNat

def appendUint64 (bytes : Bytes) (value : UInt64) : Bytes := bytes ++ beBytes 8 value.toNat

-- big.Int.FillBytes writes the absolute value and panics when it does not fit.
def fillBytes (width : Nat) (value : Int) : Go Bytes :=
  if value.natAbs < 256 ^ width then .ok (beBytes width value.natAbs) else crash

-- bits.Len64
def len64 (value : UInt64) : Nat := if value = 0 then 0 else value.toNat.log2 + 1

-- A call that returns a value with a decidable property.
def returnsWith {α : Type} (run : Go α) (check : α → Bool) : Bool :=
  match run with
  | .ok value => check value
  | .error _ => false

variable {α : Type}

theorem returns_with_iff (run : Go α) (check : α → Bool) :
    returnsWith run check = true ↔ ∃ value, run = .ok value ∧ check value = true := by
  cases run <;> simp [returnsWith]

theorem bind_ok_iff {α β : Type} (first : Go α) (next : α → Go β) (result : β) :
    first >>= next = .ok result ↔ ∃ value, first = .ok value ∧ next value = .ok result := by
  cases first with
  | error fault => simp [bind, Except.bind]
  | ok value => simp [bind, Except.bind]

@[simp] theorem ok_bind {α β : Type} {value : α} {next : α → Go β} : (Except.ok value : Go α) >>= next = next value := rfl

@[simp] theorem error_bind {α β : Type} {fault : Fault} {next : α → Go β} : (Except.error fault : Go α) >>= next = .error fault := rfl

@[simp] theorem crash_bind {α β : Type} {next : α → Go β} : (crash : Go α) >>= next = crash := rfl

variable {cause : GoError}

@[simp] theorem raise_bind {α β : Type} {next : α → Go β} : (raise cause : Go α) >>= next = raise cause := rfl

variable {value : α}

@[simp] theorem deref_some : deref (some value) = .ok value := rfl

@[simp] theorem deref_none : deref (none : Option α) = crash := rfl

theorem guarded_ok_iff {refused : Prop} [Decidable refused] {run : Go α} :
    (if refused then raise cause else run) = .ok value ↔ ¬ refused ∧ run = .ok value := by
  by_cases isRefused : refused <;> simp [isRefused, raise]

theorem fail_if_ok_iff {condition : Prop} [Decidable condition] {value : Unit} : failIf condition cause = .ok value ↔ ¬ condition := by
  by_cases holds : condition <;> simp [failIf, holds, raise]

theorem deref_ok_iff {pointer : Option α} : deref pointer = .ok value ↔ pointer = some value := by
  cases pointer <;> simp [crash]

theorem index_ok_iff {items : List α} {position : Nat} :
    index items position = .ok value ↔ items[position]? = some value := deref_ok_iff

theorem slice_ok_iff (items : List α) (low high : Nat) (part : List α) :
    slice items low high = .ok part ↔ (low ≤ high ∧ high ≤ items.length) ∧ part = (items.drop low).take (high - low) := by
  by_cases inside : low ≤ high ∧ high ≤ items.length
  · simp [slice, inside, eq_comm]
  · simp [slice, inside, crash]

theorem slice_width (items : List α) (low width : Nat) (fits : low + width ≤ items.length) :
    slice items low (low + width) = .ok ((items.drop low).take width) :=
  (slice_ok_iff _ _ _ _).mpr ⟨⟨Nat.le_add_right _ _, fits⟩, by rw [Nat.add_sub_cancel_left]⟩

theorem slice_from_ok_iff {items : List α} {low : Nat} {part : List α} :
    sliceFrom items low = .ok part ↔ low ≤ items.length ∧ part = items.drop low := by
  by_cases inside : low ≤ items.length
  · simp [sliceFrom, inside, eq_comm]
  · simp [sliceFrom, inside, crash]

theorem map_err_ok_iff {change : GoError → GoError} {run : Go α} :
    mapErr change run = .ok value ↔ run = .ok value := by
  cases run with
  | ok result => simp [mapErr]
  | error fault => cases fault <;> simp [mapErr, raise]

theorem wrap_err_ok_iff (text : String) (run : Go α) (value : α) :
    wrapErr text run = .ok value ↔ run = .ok value := map_err_ok_iff

theorem replace_err_ok_iff {run : Go α} : replaceErr cause run = .ok value ↔ run = .ok value := map_err_ok_iff

theorem attempt_ok_iff (run : Go α) (result : Except GoError α) :
    attempt run = .ok result ↔
      (∃ value, run = .ok value ∧ result = .ok value) ∨ (∃ cause, run = raise cause ∧ result = .error cause) := by
  rcases run with (cause | _ | _) | value <;> simp [attempt, raise, eq_comm]

theorem fill_bytes_ok (width : Nat) {value : Int} (bytes : Bytes) (filled : fillBytes width value = .ok bytes) :
    setBytes bytes = value.natAbs := by
  rw [fillBytes] at filled
  split at filled
  · rename_i fits
    rw [← Except.ok.inj filled, set_bytes_be_bytes width _ fits]
  · cases filled

theorem be_uint64_append (value : UInt64) (tail : Bytes) : beUint64 (beBytes 8 value.toNat ++ tail) = .ok value := by
  have width : (beBytes 8 value.toNat).length = 8 := be_bytes_length 8 _
  have fits : value.toNat < 256 ^ 8 := by simpa using value.toNat_lt
  have front : (beBytes 8 value.toNat ++ tail).take 8 = beBytes 8 value.toNat := List.take_left' width
  rw [beUint64, if_neg (by simp [width]), front, set_bytes_be_bytes 8 _ fits, UInt64.ofNat_toNat]

theorem be_uint32_append (value : UInt32) (tail : Bytes) : beUint32 (beBytes 4 value.toNat ++ tail) = .ok value := by
  have width : (beBytes 4 value.toNat).length = 4 := be_bytes_length 4 _
  have fits : value.toNat < 256 ^ 4 := by simpa using value.toNat_lt
  have front : (beBytes 4 value.toNat ++ tail).take 4 = beBytes 4 value.toNat := List.take_left' width
  rw [beUint32, if_neg (by simp [width]), front, set_bytes_be_bytes 4 _ fits, UInt32.ofNat_toNat]

theorem be_uint16_append (value : UInt16) (tail : Bytes) : beUint16 (beBytes 2 value.toNat ++ tail) = .ok value := by
  have width := be_bytes_length 2 value.toNat
  have whole : (beBytes 2 value.toNat ++ tail).take 2 = beBytes 2 value.toNat := List.take_left' width
  rw [beUint16, if_neg (by rw [List.length_append, width]; omega), whole, set_bytes_be_bytes 2 _ value.toNat_lt, UInt16.ofNat_toNat]

theorem uint16_be_bytes_injective {left right : UInt16} (same : beBytes 2 left.toNat = beBytes 2 right.toNat) : left = right := by
  have values := congrArg setBytes same
  rw [set_bytes_be_bytes 2 _ left.toNat_lt, set_bytes_be_bytes 2 _ right.toNat_lt] at values
  exact UInt16.toNat.inj values

theorem uint64_be_bytes_injective {left right : UInt64} (same : beBytes 8 left.toNat = beBytes 8 right.toNat) : left = right := by
  have leftRead := be_uint64_append left []
  rw [same, be_uint64_append right []] at leftRead
  exact (Except.ok.inj leftRead).symm

theorem uint32_be_bytes_injective {left right : UInt32} (same : beBytes 4 left.toNat = beBytes 4 right.toNat) : left = right := by
  have leftRead := be_uint32_append left []
  rw [same, be_uint32_append right []] at leftRead
  exact (Except.ok.inj leftRead).symm

theorem int64_to_uint64_injective {left right : Int64} (same : left.toUInt64 = right.toUInt64) : left = right := by
  cases left
  cases right
  exact congrArg Int64.ofUInt64 same

end GoSem
