import ControlStore.Fault

/-! # Notices

What a run tells about its progress.  A traced computation collects its notices whether or not it
runs into a fault. -/

namespace ControlStore

/-- How urgent a notice is. -/
inductive Level where
  | off
  | error
  | warn
  | info
  | debug
  | trace
deriving DecidableEq

namespace Level

/-- Higher levels show more. -/
def rank : Level → Nat
  | off => 0
  | error => 1
  | warn => 2
  | info => 3
  | debug => 4
  | trace => 5

/-- The name of a level. -/
def name : Level → String
  | off => "OFF"
  | error => "ERROR"
  | warn => "WARN"
  | info => "INFO"
  | debug => "DEBUG"
  | trace => "TRACE"

/-- All levels. -/
def all : List Level := [off, error, warn, info, debug, trace]

end Level

/-- A remark on the progress of a run. -/
inductive Notice where
  /-- Lanes were assigned. -/
  | packed (lanes groups bits : Nat)
  /-- The selector of a single signal is wider than merged selectors may be. -/
  | wideSelector (signal : String) (width bound : Nat)
  /-- The groups in two slots are merged. -/
  | merging (generation first second width₀ width₁ width : Nat)
  /-- The control word is laid out. -/
  | encoded (width valueBits fields : Nat)
  /-- The control store is filled. -/
  | stored (rows width latency : Nat)
deriving DecidableEq

namespace Notice

/-- The level at which a notice is shown. -/
def level : Notice → Level
  | packed .. => .debug
  | wideSelector .. => .warn
  | merging .. => .debug
  | encoded .. => .info
  | stored .. => .info

/-- A notice in words. -/
def message : Notice → String
  | packed lanes groups bits => s!"packed {lanes} lanes into {groups} groups, {bits} value bits"
  | wideSelector signal width bound =>
      s!"selector of `{signal}` needs {width} bits, more than {bound}"
  | merging generation first second width₀ width₁ width =>
      s!"generation {generation}: merging slots {first} and {second} ({width₀} + {width₁} -> {width} bits)"
  | encoded width valueBits fields =>
      s!"control word: {width} bits ({valueBits} value bits, {fields} fields)"
  | stored rows width latency => s!"{rows} ROM rows of {width} bits, decoder latency {latency}"

/-- A notice with its level. -/
def text (n : Notice) : String := n.level.name ++ " " ++ n.message

end Notice

/-- A computation that leaves notices and ends in a value or in an error. -/
structure Traced (ε α : Type) where
  notices : List Notice
  result : Except ε α

namespace Traced

variable {ε α : Type}

instance : Monad (Traced ε) where
  pure a := ⟨[], .ok a⟩
  bind x f :=
    match x.result with
    | .ok a => let y := f a; ⟨x.notices ++ y.notices, y.result⟩
    | .error e => ⟨x.notices, .error e⟩

/-- Leaves one notice. -/
def note (n : Notice) : Traced ε Unit := ⟨[n], .ok ()⟩

/-- Leaves several notices. -/
def notes (ns : List Notice) : Traced ε Unit := ⟨ns, .ok ()⟩

/-- A computation without notices. -/
def lift (x : Except ε α) : Traced ε α := ⟨[], x⟩

/-- The same computation with its errors renamed. -/
def mapError {ε' : Type} (f : ε → ε') (x : Traced ε α) : Traced ε' α :=
  ⟨x.notices, x.result.mapError f⟩

/-! ### Results of composed computations -/

@[simp] theorem result_pure (a : α) : (pure a : Traced ε α).result = .ok a := rfl

@[simp] theorem result_lift (x : Except ε α) : (lift x).result = x := rfl

@[simp] theorem result_note (n : Notice) : (note n : Traced ε Unit).result = .ok () := rfl

@[simp] theorem result_notes (ns : List Notice) : (notes ns : Traced ε Unit).result = .ok () := rfl

/-- The result of a sequence does not depend on the notices of its parts. -/
theorem result_bind {β : Type} (x : Traced ε α) (f : α → Traced ε β) :
    (x >>= f).result = x.result >>= fun a => (f a).result := by
  obtain ⟨ns, r⟩ := x
  cases r with
  | ok a => rfl
  | error e => rfl

end Traced

end ControlStore
