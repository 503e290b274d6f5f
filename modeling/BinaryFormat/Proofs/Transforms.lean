import BinaryFormat.Proofs.Granularity
import BinaryFormat.Proofs.Rigid
import BinaryFormat.Proofs.RoundTrip
import BinaryFormat.Proofs.Writing

/-!
# Transformed bytes

A transformation keeps the number of bytes, and its inverse takes it back, either
way round.  A component whose bytes are stored transformed is read back wherever
the component is, if the key or the distance is the same.
-/

namespace BinaryFormat

/-! ## Runs that the stream has no part in -/

namespace Run

variable {α β : Type}

/-- Where a run succeeds, it does so over every stream, and only resolves lazy members. -/
def Detached (x : Run α) : Prop :=
  ∀ (stream : Stream) (ctx : Context) (store : LazyStore) (a : α) (s : State),
    x ⟨stream, ctx, store⟩ = .ok a s →
    ∃ store', ∀ stream, x ⟨stream, ctx, store⟩ = .ok a ⟨stream, ctx, store'⟩

private theorem detached_pure (a : α) : (pure a : Run α).Detached := by
  intro stream ctx store b s h
  cases h
  exact ⟨store, fun _ => rfl⟩

private theorem detached_fail {fault : Fault} {path : Path} :
    (fail fault path : Run α).Detached := nofun

private theorem detached_lookup (x : Context → Lookup Failure α) :
    (do lookup (x (← context)) : Run α).Detached := by
  intro stream ctx store a s h
  have looked : lookup (x ctx) ⟨stream, ctx, store⟩ = .ok a s := h
  unfold lookup at looked
  cases found : x ctx store with
  | error failure store' =>
      rw [found] at looked
      cases looked
  | ok b store' =>
      rw [found] at looked
      cases looked
      exact ⟨store', fun stream => lookup_of_ok (s := ⟨stream, ctx, store⟩) found⟩

private theorem Detached.bind {x : Run α} {f : α → Run β} (first : x.Detached)
    (second : ∀ a, (f a).Detached) : (x >>= f).Detached := by
  intro stream ctx store b s h
  obtain ⟨a, s₁, run, later⟩ := bind_eq_ok_iff.mp h
  obtain ⟨store₁, everywhere⟩ := first stream ctx store a s₁ run
  cases run.symm.trans (everywhere stream)
  obtain ⟨store₂, everywhere'⟩ := second a stream ctx store₁ b s later
  refine ⟨store₂, fun stream => ?_⟩
  rw [bind_of_ok (everywhere stream), everywhere' stream]

end Run

namespace Codec

variable {key data : List UInt8} {group amount : Nat}

/-! ### Keys -/

private theorem length_xorWith (key data ahead : List UInt8) :
    (xorWith key data ahead).length = data.length := by
  induction data generalizing ahead with
  | nil => cases ahead <;> rfl
  | cons b rest ih =>
      cases ahead with
      | cons k ahead => rw [xorWith, List.length_cons, ih, List.length_cons]
      | nil => cases key <;> rw [xorWith, List.length_cons, ih, List.length_cons]

private theorem xorWith_xorWith (key data ahead : List UInt8) :
    xorWith key (xorWith key data ahead) ahead = data := by
  induction data generalizing ahead with
  | nil => cases ahead <;> rfl
  | cons b rest ih =>
      have back (k : UInt8) : b ^^^ k ^^^ k = b := by
        rw [UInt8.xor_assoc, UInt8.xor_self, UInt8.xor_zero]
      cases ahead with
      | cons k ahead => rw [xorWith, xorWith, ih, back]
      | nil =>
          cases key with
          | nil => rw [xorWith, xorWith, ih]
          | cons k ahead => rw [xorWith, xorWith, ih, back]

/-! ### Rotations -/

/-- Rotates the bits of one group. -/
def rotateGroup (amount : Nat) (chunk : List UInt8) : List UInt8 :=
  let bits := Bits.expand .msbFirst chunk
  Bits.pack .msbFirst (bits.drop amount ++ bits.take amount)

private theorem rotateGroup_eq {chunk : List UInt8} (within : amount ≤ chunk.length * 8) :
    rotateGroup amount chunk =
      Bits.pack .msbFirst ((Bits.expand .msbFirst chunk).rotate amount) := by
  rw [rotateGroup, List.rotate_eq_drop_append_take]
  rwa [Bits.length_expand_eq]

private theorem length_rotateGroup {chunk : List UInt8} (within : amount ≤ chunk.length * 8) :
    (rotateGroup amount chunk).length = chunk.length := by
  rw [rotateGroup_eq within]
  apply Bits.length_pack
  rw [List.length_rotate, Bits.length_expand_eq]

private theorem rotateGroup_back {chunk : List UInt8} (within : amount ≤ chunk.length * 8) :
    rotateGroup (chunk.length * 8 - amount) (rotateGroup amount chunk) = chunk := by
  have length := length_rotateGroup within
  have whole : ((Bits.expand .msbFirst chunk).rotate amount).length = chunk.length * 8 := by
    rw [List.length_rotate, Bits.length_expand_eq]
  have bits : Bits.AreBits ((Bits.expand .msbFirst chunk).rotate amount) := by
    intro u mem
    exact Bits.areBits_expand chunk u (List.mem_rotate.mp mem)
  rw [rotateGroup_eq (by omega), rotateGroup_eq within, Bits.expand_pack .msbFirst _ whole,
    Bits.map_mod_two bits, List.rotate_rotate, Nat.add_sub_cancel' within,
    ← Bits.length_expand_eq, List.rotate_length, Bits.pack_expand]

private theorem rotateGroups_flatten (positive : 0 < group) {groups : List (List UInt8)}
    (whole : ∀ chunk ∈ groups, chunk.length = group) :
    rotateGroups group amount groups.flatten = (groups.map (rotateGroup amount)).flatten := by
  rw [rotateGroups, Bytes.chunks_flatten positive whole, List.flatMap_def]
  rfl

private theorem rotateGroups_back (positive : 0 < group) (whole : data.length % group = 0)
    (within : amount ≤ group * 8) :
    (rotateGroups group amount data).length = data.length ∧
      rotateGroups group (group * 8 - amount) (rotateGroups group amount data) = data := by
  obtain ⟨groups, rfl, count, sizes⟩ := Bytes.exists_groups
    (Nat.div_mul_cancel (Nat.dvd_of_mod_eq_zero whole)).symm
  have rotated : ∀ chunk ∈ groups.map (rotateGroup amount), chunk.length = group := by
    intro chunk mem
    obtain ⟨before, inside, rfl⟩ := List.mem_map.mp mem
    have size := sizes before inside
    rw [length_rotateGroup (by rwa [size]), size]
  rw [rotateGroups_flatten positive sizes, rotateGroups_flatten positive rotated, List.map_map]
  constructor
  · rw [Bytes.length_flatten rotated, Bytes.length_flatten sizes, List.length_map]
  · congr 1
    refine (List.map_congr_left fun chunk mem => ?_).trans (List.map_id groups)
    have size := sizes chunk mem
    subst size
    exact rotateGroup_back within

/-- Rotates to the left, or back. -/
def rotateBy (group amount : Nat) (inverse : Bool) : List UInt8 → List UInt8 :=
  rotateGroups group (if inverse then group * 8 - amount else amount)

private theorem rotateBy_back (positive : 0 < group) (within : amount ≤ group * 8) (inverse : Bool)
    (whole : data.length % group = 0) :
    (rotateBy group amount inverse data).length = data.length ∧
      rotateBy group amount (!inverse) (rotateBy group amount inverse data) = data := by
  cases inverse with
  | false => exact rotateGroups_back positive whole within
  | true =>
      have back := rotateGroups_back positive whole (Nat.sub_le (group * 8) amount)
      rwa [Nat.sub_sub_self within] at back

/-! ### In a context -/

variable {e : Engine} {t : Transform} {path : Path} {ctx : Context} {store store' : LazyStore}
  {stream : Stream}

/-- In one context a transformation and its inverse are two functions of byte strings of a
length; what is evaluated for them does not depend on the bytes. -/
structure Acts (e : Engine) (t : Transform) (path : Path) (ctx : Context)
    (store store' : LazyStore) (n : Nat) (code : Bool → List UInt8 → List UInt8) : Prop where
  apply : ∀ (inverse : Bool) (data : List UInt8) (stream : Stream), data.length = n →
    applyTransform e inverse data path t ⟨stream, ctx, store⟩ =
      .ok (code inverse data) ⟨stream, ctx, store'⟩
  length : ∀ inverse data, data.length = n → (code inverse data).length = n
  back : ∀ inverse data, data.length = n → code (!inverse) (code inverse data) = data

private theorem detached_eval (x : Expr) (path : Path) : (e.eval x path).Detached :=
  Run.detached_lookup fun ctx => x.evaluate e.resolver ctx.scope path

private theorem detached_evalSize (x : Expr) (path : Path) : (e.evalSize x path).Detached :=
  Run.detached_lookup fun ctx => x.evaluateSize e.resolver ctx.scope path

private theorem detached_evalXorKey (key : Expr) (path : Path) :
    (evalXorKey e key path).Detached := by
  refine .bind (detached_eval key path) fun v => ?_
  cases v with
  | int k =>
      dsimp only
      split
      · exact Run.detached_pure _
      · exact Run.detached_fail
  | bytes k =>
      dsimp only
      split
      · exact Run.detached_fail
      · exact Run.detached_pure _
  | _ => exact Run.detached_fail

private theorem acts_of_applyTransform {inverse : Bool} {data result : List UInt8} {s : State}
    (h : applyTransform e inverse data path t ⟨stream, ctx, store⟩ = .ok result s) :
    ∃ store' code, Acts e t path ctx store store' data.length code := by
  cases t with
  | reverseBytes =>
      refine ⟨store, fun _ => List.reverse, fun _ _ _ _ => rfl, ?_, ?_⟩
      · simp
      · simp
  | reverseBits =>
      refine ⟨store, fun _ data => Bits.reverseEach data.reverse, fun _ _ _ _ => rfl, ?_, ?_⟩
      · simp [Bits.reverseEach]
      · exact fun _ data _ => Bits.reverseEach_reverse data
  | xor key =>
      obtain ⟨k, s₁, evaluated, -⟩ := Run.bind_eq_ok_iff.mp h
      obtain ⟨store', everywhere⟩ := detached_evalXorKey key path _ _ _ _ _ evaluated
      refine ⟨store', fun _ data => xorWith k data k, fun _ data stream _ => ?_, ?_, ?_⟩
      · rw [applyTransform, Run.bind_of_ok (everywhere stream)]
        rfl
      · exact fun _ data same => (length_xorWith k data k).trans same
      · exact fun _ data _ => xorWith_xorWith k data k
  | rotateLeft amount group =>
      obtain ⟨whole, h⟩ := Run.guard_eq_ok_iff.mp h
      obtain ⟨n, s₁, evaluated, -⟩ := Run.bind_eq_ok_iff.mp h
      obtain ⟨store', everywhere⟩ := detached_evalSize amount path _ _ _ _ _ evaluated
      have groups : group ≠ 0 ∧ data.length % group = 0 := by
        simpa using whole
      have positive := Nat.pos_of_ne_zero groups.1
      have within : n % (group * 8) ≤ group * 8 := (Nat.mod_lt n (by omega)).le
      have back (inverse : Bool) (other : List UInt8) (same : other.length = data.length) :=
        rotateBy_back positive within inverse
          (show other.length % group = 0 from same ▸ groups.2)
      refine ⟨store', rotateBy group (n % (group * 8)), fun inverse other stream same => ?_,
        fun inverse other same => (back inverse other same).1.trans same,
        fun inverse other same => (back inverse other same).2⟩
      rw [← same] at whole
      refine Run.guard_eq_ok_iff.mpr ⟨whole, ?_⟩
      exact Run.bind_eq_ok_iff.mpr ⟨n, _, everywhere stream, rfl⟩

end Codec

/-! ## Components behind transformations -/

namespace Format

variable {e : Engine} {defs : Definitions} {near : Surroundings} {u v w : Value}
  {data : List UInt8} {f : Format}

mutual

private theorem size_of_encodes (e : Engine) (defs : Definitions) : ∀ {f : Format}, f.Rigid →
    ∀ {near : Surroundings} {u v : Value} {data : List UInt8}, Encodes false near f u v data →
      data.length ≤ Value.maxSize → ∀ (ctx : Context) (path : Path) (store : LazyStore),
        (f.codec e defs).size ctx path store = .ok data.length store
  | integer _ _ _, _, _, _, _, _, encoded, _, ctx, path, store => by
      cases encoded with
      | integer _ narrow _ _ =>
          rw [Integer.length_inOrder, Bytes.length_ofNat]
          exact e.staticSize_const (Nat.le_trans narrow (by decide)) ctx path store
  | bytes _, rigid, _, _, _, _, encoded, _, ctx, path, store => by
      obtain ⟨n, rfl⟩ := rigid
      cases encoded with
      | bytes determined =>
          obtain ⟨small, same | ⟨k, -, -, other⟩⟩ := determined
          · cases same
            exact e.staticSize_const small ctx path store
          · cases other
  | named _ of, rigid, _, _, _, _, encoded, small, ctx, path, store => by
      cases encoded with
      | named inner => exact size_of_encodes e defs (f := of) rigid inner small ctx path store
  | documented _ of, rigid, _, _, _, _, encoded, small, ctx, path, store => by
      cases encoded with
      | documented inner => exact size_of_encodes e defs (f := of) rigid inner small ctx path store
  | struct fields _, rigid, _, _, _, _, encoded, small, ctx, path, store => by
      cases encoded with
      | struct _ _ _ _ each =>
          exact fieldsSize_of_encodes e defs rigid.2 each small (ctx.push []) path store

theorem fieldsSize_of_encodes (e : Engine) (defs : Definitions) : ∀ {fs : List Format},
    RigidAll fs → ∀ {near : Surroundings} {input record : Record Value} {data : List UInt8},
      EncodesFields near input fs record data → data.length ≤ Value.maxSize →
        ∀ (ctx : Context) (path : Path) (store : LazyStore),
          Codec.fieldsSize ctx path (parts e defs fs) store = .ok data.length store
  | [], _, _, _, _, _, encoded, _, _, _, _ => by
      cases encoded
      rfl
  | f :: rest, rigid, _, _, _, _, encoded, small, ctx, path, store => by
      have whole {near near' : Surroundings} {input record : Record Value} {u v : Value}
          {part data : List UInt8} (head : Encodes false near f u v part)
          (tail : EncodesFields near' input rest record data)
          (small : (part ++ data).length ≤ Value.maxSize) :
          Codec.fieldsSize ctx path (parts e defs (f :: rest)) store =
            .ok (part ++ data).length store := by
        rw [List.length_append] at small
        have first := size_of_encodes e defs rigid.1 head (by omega) ctx
        have others := fieldsSize_of_encodes e defs rigid.2 tail (by omega) ctx path store
        rw [parts, Codec.fieldsSize, Run.bind_of_ok (first _ store), Run.bind_of_ok others,
          Size.add_of_le small, List.length_append]
        rfl
      cases encoded with
      | named _ _ _ head tail => exact whole head tail small
      | unnamed _ _ head tail => exact whole head tail small

end

end Format

/-- An extent of so many bytes in a context; behind one that takes everything stands nothing. -/
def Extent.Covers (ctx : Context) (n : Nat) (suffix : List UInt8) : Extent → Prop
  | .ofChild => True
  | .toEnd => suffix = []
  | .fixed x => ∀ stream store, Engine.Sees ⟨stream, ctx, store⟩ x (.int n)

namespace Codec

variable {e : Engine} {of : Codec} {t : Transform} {extent : Extent} {path : Path}
  {ctx : Context} {store store' : LazyStore} {code : Bool → List UInt8 → List UInt8} {n : Nat}
  {u w : Value} {data suffix : List UInt8}

private theorem evalExtent_of_covers (e : Engine) (covers : extent.Covers ctx n suffix)
    (small : n ≤ Value.maxSize) (sized : ∀ store, of.size ctx path store = .ok n store) :
    ∃ span : Option Nat, (span = some n ∨ span = none ∧ suffix = []) ∧
      ∀ stream store, evalExtent e extent of path ⟨stream, ctx, store⟩ =
        .ok span ⟨stream, ctx, store⟩ := by
  cases extent with
  | ofChild =>
      refine ⟨some n, .inl rfl, fun stream store => ?_⟩
      exact Run.bind_of_ok (sizeNow_of_ok (s := ⟨stream, ctx, store⟩) (sized store)) _
  | toEnd => exact ⟨none, .inr ⟨rfl, covers⟩, fun _ _ => rfl⟩
  | fixed x =>
      refine ⟨some n, .inl rfl, fun stream store => ?_⟩
      exact Run.bind_of_ok (e.evalSize_of_sees (covers stream store) small) _

private theorem build_transformed (acts : Acts e t path ctx store store' data.length code)
    (covers : extent.Covers ctx data.length suffix) (small : data.length ≤ Value.maxSize)
    (sized : ∀ store, of.size ctx path store = .ok data.length store)
    (built : of.build u path ⟨.atEnd [], ctx, store⟩ = .ok w ⟨.atEnd data, ctx, store⟩)
    (before : List UInt8) :
    (transformed e of t extent).build u path ⟨.atEnd before, ctx, store⟩ =
      .ok w ⟨.atEnd (before ++ code true data), ctx, store'⟩ := by
  obtain ⟨span, asked, extends_⟩ := evalExtent_of_covers e covers small sized
  have marked : Run.mark ⟨.atEnd before, ctx, store⟩ =
      .ok ctx.top.deferred.length ⟨.atEnd before, ctx, store⟩ := rfl
  have resolved : e.resolveSince ctx.top.deferred.length true ⟨.atEnd data, ctx, store⟩ =
      .ok () ⟨.atEnd data, ctx, store⟩ :=
    Run.resolveSince_of_queue e (s := ⟨.atEnd data, ctx, store⟩) rfl true
  have inner : (do
      let built ← of.build u path
      e.resolveSince ctx.top.deferred.length true
      return built : Run Value) ⟨.memory [], ctx, store⟩ = .ok w ⟨.atEnd data, ctx, store⟩ :=
    (Run.bind_of_ok built _).trans (Run.bind_of_ok resolved _)
  have encoded := acts.apply true data (.atEnd before) rfl
  have whole := acts.length true data rfl
  have written : Run.write (code true data) path ⟨.atEnd before, ctx, store'⟩ =
      .ok () ⟨.atEnd (before ++ code true data), ctx, store'⟩ := Run.write_atEnd before _
  simp only [transformed]
  rw [Run.bind_of_ok marked, Run.bind_of_ok (Run.onStream_of_ok inner)]
  dsimp only [Stream.data_atEnd]
  rw [Run.bind_of_ok encoded, Run.bind_of_ok (extends_ _ _)]
  rcases asked with rfl | ⟨rfl, -⟩
  · simp only [whole, ne_eq, not_true_eq_false, if_false]
    exact Run.bind_of_ok written _
  · exact Run.bind_of_ok written _

private theorem parse_transformed (acts : Acts e t path ctx store store' data.length code)
    {near : Surroundings} {v : Value} {toEnd : Bool} (held : near.Held ctx)
    (covers : extent.Covers ctx data.length suffix) (small : data.length ≤ Value.maxSize)
    (sized : ∀ store, of.size ctx path store = .ok data.length store)
    (reads : of.Reads toEnd near v data) {m : Medium}
    (next : m.rest = code true data ++ suffix) :
    ∃ p ctx', (transformed e of t extent).parse path ⟨.medium m, ctx, store⟩ =
      .ok p ⟨.medium (m.skip data.length), ctx', store'⟩ ∧ v.Extends true p := by
  obtain ⟨span, asked, extends_⟩ := evalExtent_of_covers e covers small sized
  have whole := acts.length true data rfl
  have decoded := acts.apply false (code true data) (.medium (m.skip data.length)) whole
  have restored : code false (code true data) = data := acts.back true data rfl
  obtain ⟨p, ctx', parsed, -, ext⟩ := parseSlice_of_reads reads [] (fun _ => rfl) path
    ⟨.medium (m.skip data.length), ctx, store'⟩ held
  rw [restored] at decoded
  rw [List.append_nil] at parsed
  have later : (do
      let decoded ← applyTransform e false (code true data) path t
      return (← of.parseSlice decoded path).1 : Run Value)
        ⟨.medium (m.skip data.length), ctx, store⟩ =
          .ok p ⟨.medium (m.skip data.length), ctx', store'⟩ := by
    rw [Run.bind_of_ok decoded, Run.bind_of_ok parsed]
    rfl
  refine ⟨p, ctx', ?_, ext⟩
  simp only [transformed]
  rw [Run.bind_of_ok (extends_ _ _)]
  rcases asked with rfl | ⟨rfl, rfl⟩
  · exact (Run.bind_of_ok (Run.read_of_rest_of_eq next whole.symm) _).trans (whole ▸ later)
  · rw [List.append_nil] at next
    refine (Run.bind_of_ok Run.readAll_eq _).trans ?_
    rw [next, whole]
    exact later

end Codec

namespace Format

open Codec

/-- What encodes is built where nothing else changes. -/
private theorem Encodes.builds {f : Format} {u v : Value} {data : List UInt8}
    (encoded : Encodes false .nothing f u v data) (rigid : f.Rigid) (e : Engine)
    (defs : Definitions) (ctx : Context) (store : LazyStore) (path : Path) :
    ∃ w, (f.codec e defs).build u path ⟨.atEnd [], ctx, store⟩ =
        .ok w ⟨.atEnd data, ctx, store⟩ ∧ v.Extends false w ∧
      (v.Bounds u → v.Extends true w) := by
  obtain ⟨w, ctx', built, -, ext, exact'⟩ := encoded.writes e defs [] ctx store path
    (Surroundings.held_nothing ctx) (Surroundings.counted_nothing ctx)
  obtain ⟨_, _, same, -⟩ := verifies_codec e defs rigid u path [] ctx store w _ built
  cases same
  exact ⟨w, built, ext, exact'⟩

/-- A transformation that accepts so many bytes keeps their number, and its inverse takes it
back, either way round. What a component of constant size was built into is then read back behind
the transformation, and building what was read yields the same bytes again. -/
theorem transforms_invert (e : Engine) (t : Transform) (path : Path) (ctx : Context)
    (store : LazyStore) :
    (∀ (stream : Stream) (d decoded : List UInt8) (s : State),
      applyTransform e false d path t ⟨stream, ctx, store⟩ = .ok decoded s →
        decoded.length = d.length ∧
        applyTransform e true decoded path t ⟨stream, ctx, store⟩ = .ok d s ∧
        ∃ encoded, applyTransform e true d path t ⟨stream, ctx, store⟩ = .ok encoded s ∧
          encoded.length = d.length ∧
          applyTransform e false encoded path t ⟨stream, ctx, store⟩ = .ok d s) ∧
    ∀ (defs : Definitions) (f : Format) (extent : Extent) (n : Nat) (u w : Value) (s : State)
      (store' : LazyStore), f.Plain false .nothing → f.Rigid → u.Proper →
      (f.codec e defs).size ctx path store = .ok n store' →
      (f.codec e defs).build u path ⟨.atEnd [], ctx, store⟩ = .ok w s →
      s.stream.data.length ≤ Value.maxSize →
      (∃ stream d decoded s, d.length = n ∧
        applyTransform e false d path t ⟨stream, ctx, store⟩ = .ok decoded s) →
      let codec := (transformed f t extent).codec e defs
      ∃ (bytes : List UInt8) (store' : LazyStore), bytes.length = n ∧
        ∀ suffix, extent.Covers ctx n suffix →
          (∀ before, codec.build u path ⟨.atEnd before, ctx, store⟩ =
            .ok w ⟨.atEnd (before ++ bytes), ctx, store'⟩) ∧
          ∀ m : Medium, m.rest = bytes ++ suffix →
            ∃ p ctx', codec.parse path ⟨.medium m, ctx, store⟩ =
                .ok p ⟨.medium (m.skip n), ctx', store'⟩ ∧
              f.Conveys u p ∧ p.Extends false w ∧
              ∃ w', p.same w' = true ∧ ∀ before, codec.build p path ⟨.atEnd before, ctx, store⟩ =
                .ok w' ⟨.atEnd (before ++ bytes), ctx, store'⟩ := by
  constructor
  · intro stream d decoded s h
    obtain ⟨store', code, acts⟩ := acts_of_applyTransform h
    cases h.symm.trans (acts.apply false d stream rfl)
    refine ⟨acts.length false d rfl, ?_, code true d, acts.apply true d stream rfl,
      acts.length true d rfl, ?_⟩
    · rw [acts.apply true _ stream (acts.length false d rfl)]
      exact congrArg (EStateM.Result.ok · _) (acts.back false d rfl)
    · rw [acts.apply false _ stream (acts.length true d rfl)]
      exact congrArg (EStateM.Result.ok · _) (acts.back true d rfl)
  · rintro defs f extent n u w s store' plain rigid proper sized built small
      ⟨stream, d, decoded, s', rfl, accepted⟩ codec
    -- What the component is built to alone is an encoding, of a length that the size tells; the
    -- transform acts on it.
    obtain ⟨v, data, encoded⟩ := Plain.accounted e defs f false .nothing plain .nothing
      (Visible.known_nothing _) u [] ctx store path w s proper (Surroundings.held_nothing _)
      (Surroundings.counted_nothing _) built
    obtain ⟨w₁, alone, ext, -⟩ := encoded.builds rigid e defs ctx store path
    cases built.symm.trans alone
    rw [Stream.data_atEnd] at small
    have size := size_of_encodes e defs rigid encoded small ctx path
    have same : d.length = data.length :=
      (EStateM.Result.ok.inj (sized.symm.trans (size store))).1
    obtain ⟨store', code, acts⟩ := acts_of_applyTransform accepted
    rw [same] at acts
    refine ⟨code true data, store', (acts.length true data rfl).trans same.symm, ?_⟩
    intro suffix covers
    rw [same] at covers ⊢
    refine ⟨build_transformed acts covers small size alone, fun m next => ?_⟩
    obtain ⟨p, ctx', parsed, exact'⟩ := parse_transformed acts (Surroundings.held_nothing ctx)
      covers small size (encoded.reads e defs proper small) next
    -- What is parsed extends what was encoded, so it is encoded in the same way.
    obtain ⟨w', again, -, bounded⟩ := (encoded.again exact').builds rigid e defs ctx store path
    refine ⟨p, ctx', parsed, encoded.conveys exact', Value.extends_of_exact exact' ext, w', ?_,
      build_transformed acts covers small size again⟩
    exact Value.same_of_extends exact' (bounded (Value.bounds_of_exact exact'))

/-- Two bytes that are stored as one group, rotated by more than its width. -/
theorem transforms_invert_rotated :
    let rotated := Transform.rotateLeft (.const (.int 19)) 2
    let codec := (transformed (unsigned 2 .big) rotated .ofChild).codec (inner []) []
    let start (stream : Stream) : State := ⟨stream, .ofParams [], .empty⟩
    (∃ s, applyTransform (inner []) true [8, 16] .this rotated (start (.memory [])) =
      .ok [1, 2] s) ∧
    ∃ bytes : List UInt8, bytes.length = 2 ∧
      (∃ s, codec.build (.int 258) .this (start (.atEnd [])) = .ok (.int 258) s ∧
        s.stream = .atEnd bytes) ∧
      ∃ s, codec.parse .this (start (.memory (bytes ++ [9]))) = .ok (.int 258) s ∧
        s.stream.pos = 2 := by
  intro rotated codec start
  obtain ⟨inverts, reads⟩ := transforms_invert (inner []) rotated .this (.ofParams []) .empty
  have accepted : applyTransform (inner []) false [1, 2] .this rotated (start (.memory [])) =
      .ok [8, 16] (start (.memory [])) := rfl
  obtain ⟨-, undone, -⟩ := inverts _ _ _ _ accepted
  refine ⟨⟨_, undone⟩, ?_⟩
  obtain ⟨bytes, store', length, each⟩ := reads [] (unsigned 2 .big) .ofChild 2 (.int 258)
    (.int 258) _ .empty ⟨2, rfl, by decide, by decide⟩ ⟨2, rfl⟩
    (show Value.fitsInt 258 = true by decide) rfl rfl (by decide) ⟨_, [1, 2], _, _, rfl, accepted⟩
  obtain ⟨built, parsed⟩ := each [9] trivial
  obtain ⟨p, ctx', parsed, ⟨k, given, rfl⟩, -⟩ := parsed ⟨.growing, bytes ++ [9], 0⟩ (by
    simp [Medium.rest, Medium.base])
  cases given
  exact ⟨bytes, length, ⟨_, built [], rfl⟩, _, parsed, rfl⟩

end Format

end BinaryFormat
