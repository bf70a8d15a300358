import Pgzf.Library.Program

/-!
# Errors and exits

`error.rs`, the part of `std::io::Error` the crate looks at, and the ways a call can end without a
value. An arithmetic overflow, a slice index out of range and a failed `expect` are panics, as in a
build with overflow checks; a loop that runs out of its step budget diverges.
-/

namespace Pgzf

abbrev Bytes := List UInt8

/-- The variants of `std::io::ErrorKind` the crate names. -/
inductive ErrorKind where
  | unexpectedEof
  | invalidData
  | invalidInput
  | unsupported
  | other
  deriving DecidableEq, Repr

/-- A `std::io::Error`: its kind and its text. -/
structure IoError where
  kind : ErrorKind
  message : String
  deriving DecidableEq, Repr

/-- What `read_exact` reports when the source ends early. -/
def IoError.unexpectedEof : IoError := ⟨.unexpectedEof, "failed to fill whole buffer"⟩

inductive PgzfError where
  | io (e : IoError)
  | deflate (message : String)
  | inflate (message : String)
  | invalidFormat (message : String)
  | invalidGzipMagic (a b : UInt8)
  | crcMismatch (expected computed : UInt32)
  | indexNotAvailable
  | seekBeyondEnd (target total : Nat)
  deriving DecidableEq, Repr

/-- The `{:#0w$x}` format: lower-case hexadecimal
after `0x`, padded with zeros to `width` in all. -/
def hexPadded (width n : Nat) : String :=
  let digits := Nat.toDigits 16 n
  String.ofList ('0' :: 'x' :: (List.replicate (width - 2 - digits.length) '0' ++ digits))

/-- The text of an error. -/
def PgzfError.display : PgzfError → String
  | .io e => "I/O error: " ++ e.message
  | .deflate e => "deflate error: " ++ e
  | .inflate e => "inflate error: " ++ e
  | .invalidFormat e => "invalid PGZF format: " ++ e
  | .invalidGzipMagic a b =>
    "invalid gzip header: expected magic 1f 8b, got " ++ hexPadded 4 a.toNat ++ " " ++
      hexPadded 4 b.toNat
  | .crcMismatch expected computed =>
    "CRC32 mismatch: expected " ++ hexPadded 10 expected.toNat ++ ", computed " ++
      hexPadded 10 computed.toNat
  | .indexNotAvailable => "index not available: file is not PGZF or index not yet built"
  | .seekBeyondEnd target total =>
    "seek target " ++ toString target ++ " beyond end of data " ++ toString total

/-- `From<PgzfError> for std::io::Error`. -/
def PgzfError.toIo : PgzfError → IoError
  | .io e => e
  | e => ⟨.other, e.display⟩

/-- The ways a call ends without a value. -/
inductive Fault where
  | error (e : PgzfError)
  | panic (message : String)
  | diverges
  deriving DecidableEq, Repr

/-- An exit with an error of the crate: no panic, and no loop without end. -/
def Fault.IsError (fault : Fault) : Prop := ∃ e, fault = .error e

/-- A call on a state of type `σ`: its result, and the state it leaves behind in either case. -/
abbrev Prog (σ α : Type) := EStateM Fault σ α

namespace Prog

variable {σ α : Type}

/-- The `Result` of a call as a value; a panic is not caught. -/
def attempt (m : Prog σ α) : Prog σ (Except PgzfError α) := fun s =>
  match m s with
  | .ok a s' => .ok (.ok a) s'
  | .error (.error e) s' => .ok (.error e) s'
  | .error fault s' => .error fault s'

/-- The `?` operator on a value of type `Result`. -/
def ofExcept : Except PgzfError α → Prog σ α
  | .ok a => pure a
  | .error e => throw (.error e)

/-- The `?` operator where a `PgzfError` becomes a `std::io::Error`. -/
def intoIo (m : Prog σ α) : Prog σ α := fun s =>
  match m s with
  | .ok a s' => .ok a s'
  | .error (.error e) s' => .error (.error (.io e.toIo)) s'
  | .error fault s' => .error fault s'

/-- `Result::expect`: an error becomes a panic. -/
def expect (message : String) (m : Prog σ α) : Prog σ α := fun s =>
  match m s with
  | .ok a s' => .ok a s'
  | .error (.error _) s' => .error (.panic message) s'
  | .error fault s' => .error fault s'

@[simp] theorem ofExcept_ok (a : α) (s : σ) : (ofExcept (.ok a) : Prog σ α) s = .ok a s := rfl

@[simp] theorem ofExcept_error (e : PgzfError) (s : σ) :
    (ofExcept (.error e) : Prog σ α) s = .error (.error e) s := rfl

/-- What the `?` operator lets pass. -/
theorem of_ofExcept_ok {result : Except PgzfError α} {s s' : σ} {a : α}
    (h : (ofExcept result : Prog σ α) s = .ok a s') : result = .ok a ∧ s' = s := by
  cases result with
  | error e => exact absurd h (by simp)
  | ok b =>
    obtain ⟨rfl, rfl⟩ := EStateM.Result.ok.inj h
    exact ⟨rfl, rfl⟩

theorem attempt_ok {m : Prog σ α} {s s' : σ} {a : α} (h : m s = .ok a s') :
    attempt m s = .ok (.ok a) s' := by
  rw [attempt, h]

theorem attempt_error {m : Prog σ α} {s s' : σ} {e : PgzfError} (h : m s = .error (.error e) s') :
    attempt m s = .ok (.error e) s' := by
  rw [attempt, h]

theorem of_attempt_ok {m : Prog σ α} {s s' : σ} {answer : Except PgzfError α}
    (h : attempt m s = .ok answer s') :
    (∃ a, answer = .ok a ∧ m s = .ok a s') ∨ ∃ e, answer = .error e ∧
      m s = .error (.error e) s' := by
  cases hrun : m s with
  | ok a mid =>
    obtain ⟨rfl, rfl⟩ := EStateM.Result.ok.inj ((attempt_ok hrun).symm.trans h)
    exact .inl ⟨a, rfl, rfl⟩
  | error fault mid =>
    cases fault with
    | error e =>
      obtain ⟨rfl, rfl⟩ := EStateM.Result.ok.inj ((attempt_error hrun).symm.trans h)
      exact .inr ⟨e, rfl, rfl⟩
    | _ =>
      rw [attempt, hrun] at h
      exact absurd h (by simp)

theorem intoIo_ok {m : Prog σ α} {s s' : σ} {a : α} (h : m s = .ok a s') :
    intoIo m s = .ok a s' := by
  rw [intoIo, h]

theorem of_intoIo_ok {m : Prog σ α} {s s' : σ} {a : α} (h : intoIo m s = .ok a s') :
    m s = .ok a s' := by
  cases hrun : m s with
  | ok b mid => exact (intoIo_ok hrun).symm.trans h
  | error fault mid =>
    rw [intoIo, hrun] at h
    cases fault <;> exact absurd h (by simp)

theorem post_attempt {m : Prog σ α} {s : σ} {Q : α → σ → Prop} {R : Fault → σ → Prop}
    {S : Except PgzfError α → σ → Prop} (h : Program.Post Q R (m s))
    (hQ : ∀ a s', Q a s' → S (.ok a) s') (hS : ∀ e s', R (.error e) s' → S (.error e) s') :
    Program.Post S R (attempt m s) := by
  rw [attempt]
  cases hrun : m s with
  | ok a s' =>
    rw [hrun] at h
    exact hQ a s' h
  | error fault s' =>
    rw [hrun] at h
    cases fault with
    | error e => exact hS e s' h
    | panic message => exact h
    | diverges => exact h

theorem post_intoIo {m : Prog σ α} {s : σ} {Q : α → σ → Prop} {P : σ → Prop}
    (h : Program.Post Q (fun fault s' => fault.IsError ∧ P s') (m s)) :
    Program.Post Q (fun fault s' => fault.IsError ∧ P s') (intoIo m s) := by
  rw [intoIo]
  cases hrun : m s with
  | ok a s' =>
    rw [hrun] at h
    exact h
  | error fault s' =>
    rw [hrun] at h
    obtain ⟨⟨e, rfl⟩, hs⟩ := h
    exact ⟨⟨_, rfl⟩, hs⟩

/-- What is known of the state behind an exit stays known. -/
theorem post_intoIo_state {m : Prog σ α} {s : σ} {Q : α → σ → Prop} {P : σ → Prop}
    (h : Program.Post Q (fun _ s' => P s') (m s)) :
    Program.Post Q (fun _ s' => P s') (intoIo m s) := by
  rw [intoIo]
  cases hrun : m s with
  | ok a s' =>
    rw [hrun] at h
    exact h
  | error fault s' =>
    rw [hrun] at h
    cases fault with
    | error e => exact h
    | panic message => exact h
    | diverges => exact h

theorem post_ofExcept (result : Except PgzfError α) {s : σ} {P : σ → Prop} (hs : P s) :
    Program.Post (fun a s' => result = .ok a ∧ s' = s) (fun fault s' => fault.IsError ∧
      P s') (ofExcept result s) := by
  cases result with
  | ok a => exact ⟨rfl, rfl⟩
  | error e => exact ⟨⟨e, rfl⟩, hs⟩

theorem expect_ok {m : Prog σ α} {message : String} {s s' : σ} {a : α} (h : m s = .ok a s') :
    expect message m s = .ok a s' := by
  rw [expect, h]

theorem of_expect_ok {m : Prog σ α} {message : String} {s s' : σ} {a : α}
    (h : expect message m s = .ok a s') :
    m s = .ok a s' := by
  rw [expect] at h
  split at h
  · rename_i hm
    rw [hm, h]
  · exact absurd h (by simp)
  · exact absurd h (by simp)

end Prog

end Pgzf
