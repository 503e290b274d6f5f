import BinaryFormat.Format.Basic

/-!
# Contexts

The stack of frames of one run.  The lowest frame holds the caller's
parameters; every structure pushes a frame that gathers its fields.  A frame
also queues the back-patches of fields whose value is not known yet: those that
are still pending when the frame is left move to the frame below and remember
the scope that they came from.
-/

namespace BinaryFormat

/-- How a back-patch computes the value that it writes. -/
inductive Patch where
  | value (expr : Expr)
  | checksum (data : Expr) (hash : Hash)

/-- A reserved region, to be written once its value is known. -/
structure Deferred where
  offset : Nat
  size : Nat
  field : Format
  patch : Patch
  path : Path
  /-- How many frames were below the one that the patch was registered on. -/
  depth : Nat
  /-- The frames left since, outermost first. -/
  scopes : List (Record Value)

structure Frame where
  values : Record Value
  deferred : List Deferred

/-- The frames of a run, innermost first. -/
structure Context where
  top : Frame
  below : List Frame

namespace Context

instance : Inhabited Context := ⟨⟨⟨[], []⟩, []⟩⟩

/-- The context of a fresh run. -/
def ofParams (params : Record Value) : Context := ⟨⟨params, []⟩, []⟩

def frames (ctx : Context) : List (Record Value) :=
  ctx.top.values :: ctx.below.map Frame.values

def scope (ctx : Context) : Scope := ⟨ctx.frames, none, none⟩

/-- The frame of the innermost structure. -/
def innermost (ctx : Context) : Record Value := ctx.top.values

def insert (ctx : Context) (name : String) (value : Value) : Context :=
  { ctx with top := { ctx.top with values := ctx.top.values.insert name value } }

def push (ctx : Context) (values : Record Value) : Context :=
  ⟨⟨values, []⟩, ctx.top :: ctx.below⟩

/-- Leaves the innermost frame; its pending patches move to the one below. -/
def pop (ctx : Context) : Context :=
  match ctx.below with
  | [] => ctx
  | next :: rest =>
    let moved := ctx.top.deferred.map fun d => { d with scopes := ctx.top.values :: d.scopes }
    ⟨{ next with deferred := next.deferred ++ moved }, rest⟩

theorem pop_push (ctx : Context) (values : Record Value) : (ctx.push values).pop = ctx := by
  simp [push, pop]

theorem frames_push (ctx : Context) (values : Record Value) :
    (ctx.push values).frames = values :: ctx.frames := rfl

/-! ## Pending patches -/

/-- Queues a patch on the innermost frame. -/
def defer (ctx : Context) (d : Deferred) : Context :=
  let d := { d with depth := ctx.below.length }
  { ctx with top := { ctx.top with deferred := ctx.top.deferred ++ [d] } }

/-- How many patches the innermost frame has queued. -/
def mark (ctx : Context) : Nat := ctx.top.deferred.length

def withDeferred (ctx : Context) (deferred : List Deferred) : Context :=
  { ctx with top := { ctx.top with deferred := deferred } }

/-- Shifts the patches queued after `mark`, once their scratch buffer lands at `base`. -/
def rebaseSince (ctx : Context) (mark base : Nat) : Context :=
  ctx.withDeferred <| ctx.top.deferred.take mark ++
    (ctx.top.deferred.drop mark).map fun d => { d with offset := d.offset + base }

/-- Drops the patches queued after `mark`, after their bytes were thrown away. -/
def discardSince (ctx : Context) (mark : Nat) : Context :=
  ctx.withDeferred (ctx.top.deferred.take mark)

/-- Notes the value of a patch in the frame that registered it, if that is still the innermost
one and has an entry of that name. -/
def noted (ctx : Context) (d : Deferred) (built : Value) : Context :=
  if d.scopes.isEmpty && d.depth == ctx.below.length then
    match d.path.fieldName? with
    | some name => if ctx.innermost.contains name then ctx.insert name built else ctx
    | none => ctx
  else ctx

/-- The scope in which a patch is computed: the frames that it has left since it was
registered are put back on top. -/
def scopeOf (ctx : Context) (d : Deferred) : Scope :=
  ⟨d.scopes.reverse ++ ctx.frames, none, none⟩

end Context

end BinaryFormat
