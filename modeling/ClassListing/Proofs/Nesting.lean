import ClassListing.Proofs.Truncation

namespace ClassListing

namespace Reader

variable {α β : Type}

instance : LawfulMonad Reader := by
  refine LawfulMonad.mk' _ (fun r => ?_) (fun a f => rfl) fun r f g => ?_
  · funext c
    change (match r c with | .ok (a, d) => .ok (a, d) | .error fault => .error fault) = r c
    cases r c <;> rfl
  · funext c
    simp only [bind, Reader.bind]
    cases r c <;> rfl

theorem bind_congr_at {r s : Reader α} {f g : α → Reader β} {c : Cursor} (h : r c = s c)
    (hnext : ∀ a d, s c = .ok (a, d) → f a d = g a d) : (r >>= f) c = (s >>= g) c := by
  simp only [bind, Reader.bind, h]
  cases hs : s c with
  | error fault => rfl
  | ok p => exact hnext p.1 p.2 hs

/-- Reading a table of items at the first cursor comes to an item at the second one. -/
def Visits (item : Reader α) (c d : Cursor) : Prop :=
  ∃ count e, word16 c = .ok (count, e) ∧ ∃ k < count.toNat, ∃ as, times k item e = .ok (as, d)

theorem times_congr_at {item other : Reader α} {n : Nat} {c : Cursor}
    (h : ∀ k < n, ∀ as d, times k item c = .ok (as, d) → other d = item d) :
    times n other c = times n item c := by
  induction n generalizing c with
  | zero => rfl
  | succ n ih =>
      apply bind_congr_at (h 0 (Nat.zero_lt_succ n) [] c rfl)
      intro a d ha
      have hrest : times n other d = times n item d := by
        apply ih
        intro k hk as e has
        apply h (k + 1) (Nat.succ_lt_succ hk) (a :: as)
        exact bind_eq_ok.2 ⟨a, d, ha, bind_eq_ok.2 ⟨as, e, has, rfl⟩⟩
      exact bind_congr_at hrest fun _ _ _ => rfl

theorem counted_congr_at {item other : Reader α} {c : Cursor}
    (h : ∀ d, Visits item c d → other d = item d) : counted other c = counted item c := by
  apply bind_congr_at rfl
  intro count e hcount
  apply times_congr_at
  intro k hk as d has
  exact h d ⟨count, e, hcount, k, hk, as, has⟩

/-- Where it succeeds, the reader has taken so many bytes or more. -/
def Shortens (r : Reader α) (n : Nat) : Prop :=
  ∀ c a d, r c = .ok (a, d) → n + d.rest.length ≤ c.rest.length

theorem Advances.shortens {r : Reader α} (h : r.Advances) : r.Shortens 0 := by
  intro c a d hread
  rw [Nat.zero_add]
  exact h.length_le hread

theorem shortens_word16 : word16.Shortens 2 := fun _ _ _ h => (length_of_word16 h).ge

theorem shortens_word32 : word32.Shortens 4 := fun _ _ _ h => (length_of_word32 h).ge

theorem Shortens.bind {r : Reader α} {f : α → Reader β} {m n : Nat} (hr : r.Shortens m)
    (hf : ∀ a, (f a).Shortens n) : (r >>= f).Shortens (m + n) := by
  intro c b d h
  obtain ⟨a, e, ha, hb⟩ := bind_eq_ok.1 h
  have hfirst := hr c a e ha
  have hsecond := hf a e b d hb
  omega

theorem shortens_guard {p : Prop} [Decidable p] (a : α) (fault : Fault) :
    (if p then pure a else fail fault : Reader α).Shortens 0 := by
  split
  · exact (advances_pure a).shortens
  · exact (advances_fail fault).shortens

theorem Visits.length_le {item : Reader α} {c d : Cursor} (hitem : item.Advances)
    (h : Visits item c d) : 2 + d.rest.length ≤ c.rest.length := by
  obtain ⟨count, e, hcount, k, -, as, has⟩ := h
  have hword := length_of_word16 hcount
  have hitems := (advances_times hitem k).length_le has
  omega

end Reader

open Reader

namespace Attribute

variable {pool : Pool}

def readFramed (pool : Pool) : Reader Attribute := do
  let frame ← readFrame pool
  check (ofFrame pool frame)

theorem readFrames_eq_times (count : Nat) : readFrames pool count = times count (readFramed pool) := by
  induction count with
  | zero =>
      funext c
      rw [readFrames]
      rfl
  | succ count ih => rw [readFrames_succ, ih, times, readFramed, bind_assoc]

theorem readAll_eq_counted : readAll pool = counted (readFramed pool) := by
  rw [readAll, counted]
  simp only [readFrames_eq_times]

theorem advances_readFramed (pool : Pool) : (readFramed pool).Advances :=
  (incremental_readFrame pool).advances.bind fun _ => advances_check _

def readCodeWith (pool : Pool) (attributes : Reader (List Attribute)) : Reader Attribute := do
  let body ← readCode pool
  let inside ← attributes
  return .code body inside

def readInside (frame : Frame) (body : Reader Attribute) : Except Fault Attribute :=
  match body (.start frame.info) with
  | .error fault => .error fault
  | .ok (attr, c) => finish frame attr c

def ofFrameWith (pool : Pool) (code : Reader Attribute) (frame : Frame) : Except Fault Attribute :=
  if frame.name = "Code" then readInside frame code
  else
    match flatBody? pool frame.name with
    | none => .ok (.unknown frame.name frame.info)
    | some body => readInside frame body

def readAllWith (pool : Pool) (code : Reader Attribute) : Reader (List Attribute) :=
  counted do
    let frame ← readFrame pool
    check (ofFrameWith pool code frame)

/-- A body of code with code in it up to a depth. What is nested deeper is left to `beyond`. -/
def readCodeUpTo (pool : Pool) (beyond : Reader Attribute) : Nat → Reader Attribute
  | 0 => beyond
  | depth + 1 => readCodeWith pool (readAllWith pool (readCodeUpTo pool beyond depth))

theorem readCodeWith_readAll :
    readCodeWith pool (readAll pool) = (do
      let (body, count) ← readCodeHead pool
      let inside ← times count (readFramed pool)
      return .code body inside : Reader Attribute) := by
  simp only [readCodeWith, readAll_eq_counted, counted, readCodeHead, bind_assoc, pure_bind]

/-- The recursion: a frame is read by reading the attributes inside of it, if it holds code. -/
theorem ofFrame_eq (frame : Frame) :
    ofFrame pool frame = ofFrameWith pool (readCodeWith pool (readAll pool)) frame := by
  rw [ofFrame, ofFrameWith]
  by_cases hname : frame.name = "Code"
  · rw [if_pos hname, if_pos hname, readInside, readCodeWith_readAll]
    simp only [bind, Reader.bind]
    split
    next hhead => simp only [hhead]
    next body count c hhead =>
      simp only [hhead, readFrames_eq_times]
      cases times count (readFramed pool) c <;> rfl
  · exact (if_neg hname).trans (if_neg hname).symm

/-- Reading the table of attributes at a cursor comes to the body of this frame. -/
def Opens (pool : Pool) (c : Cursor) (frame : Frame) : Prop :=
  ∃ d e, Visits (readFramed pool) c d ∧ readFrame pool d = .ok (frame, e)

/-- The first frame holds code, and reading its body comes to the body of the second one. -/
def Encloses (pool : Pool) (outer inner : Frame) : Prop :=
  outer.name = "Code" ∧ ∃ body c, readCode pool (.start outer.info) = .ok (body, c) ∧ Opens pool c inner

theorem readAllWith_congr_at {code : Reader Attribute} {c : Cursor}
    (h : ∀ frame, Opens pool c frame → ofFrameWith pool code frame = ofFrame pool frame) :
    readAllWith pool code c = readAll pool c := by
  rw [readAll_eq_counted]
  apply counted_congr_at
  intro d hvisits
  apply bind_congr_at rfl
  intro frame e hframe
  rw [h frame ⟨d, e, hvisits, hframe⟩]

theorem Opens.length_le {c : Cursor} {frame : Frame} (h : Opens pool c frame) :
    frame.info.length + 8 ≤ c.rest.length := by
  obtain ⟨d, e, hvisits, hframe⟩ := h
  have htable := hvisits.length_le (advances_readFramed pool)
  have hlength := length_of_readFrame hframe
  omega

theorem shortens_readCode (pool : Pool) : (readCode pool).Shortens 10 := by
  have hhandlers : (counted (readHandler pool)).Shortens 2 :=
    shortens_word16.bind fun _ => (advances_times (advances_readHandler pool) _).shortens
  apply shortens_word16.bind (n := 8)
  intro maxStack
  apply shortens_word16.bind (n := 6)
  intro maxLocals
  apply shortens_word32.bind (n := 2)
  intro length
  split
  · intro c body d h
    cases h
  · -- the code array itself can be empty
    apply (advances_take _).shortens.bind (n := 2)
    intro code
    apply (advances_check _).shortens.bind (n := 2)
    intro instructions
    apply (advances_check _).shortens.bind (n := 2)
    intro _
    exact hhandlers.bind fun _ => (advances_pure _).shortens

theorem Encloses.length_le {outer inner : Frame} (h : Encloses pool outer inner) :
    inner.info.length + 18 ≤ outer.info.length := by
  obtain ⟨-, body, c, hcode, hopens⟩ := h
  have hhead := shortens_readCode pool _ _ _ hcode
  have hinner := hopens.length_le
  change 10 + c.rest.length ≤ outer.info.length at hhead
  omega

theorem ofFrameWith_readCodeUpTo (beyond : Reader Attribute) {depth : Nat} {frame : Frame}
    (h : frame.info.length < 18 * depth) :
    ofFrameWith pool (readCodeUpTo pool beyond depth) frame = ofFrame pool frame := by
  induction depth generalizing frame with
  | zero => exact absurd h (Nat.not_lt_zero _)
  | succ depth ih =>
      rw [ofFrame_eq, ofFrameWith, ofFrameWith]
      by_cases hname : frame.name = "Code"
      · have hbody : readCodeUpTo pool beyond (depth + 1) (.start frame.info) =
            readCodeWith pool (readAll pool) (.start frame.info) := by
          apply bind_congr_at rfl
          intro body c hcode
          have hinside : readAllWith pool (readCodeUpTo pool beyond depth) c = readAll pool c := by
            apply readAllWith_congr_at
            intro inner hopens
            -- a frame in here is so much shorter that one level less is enough for it
            have hshorter := Encloses.length_le ⟨hname, body, c, hcode, hopens⟩
            exact ih (by omega)
          exact bind_congr_at hinside fun _ _ _ => rfl
        rw [if_pos hname, if_pos hname, readInside, readInside, hbody]
      · rw [if_neg hname, if_neg hname]

/-- A table is read as it always is, if code may be nested as deep as the bytes from the cursor on
allow. Of the 18 bytes that a code body takes, the table's count and the frame have eight. -/
theorem readAllWith_readCodeUpTo (beyond : Reader Attribute) {depth : Nat} {c : Cursor}
    (h : (c.rest.length + 10) / 18 ≤ depth) :
    readAllWith pool (readCodeUpTo pool beyond depth) c = readAll pool c := by
  apply readAllWith_congr_at
  intro frame hopens
  have hlength := hopens.length_le
  exact ofFrameWith_readCodeUpTo beyond (by omega)

def declaredLength (c : Cursor) : Nat := bigEndian ((c.rest.drop 2).take 4)

theorem advance_of_readFramed {c d : Cursor} {attr : Attribute} (h : readFramed pool c = .ok (attr, d)) :
    6 + declaredLength c ≤ c.rest.length ∧ d.rest = c.rest.drop (6 + declaredLength c) ∧
      d.pos = c.pos + (6 + declaredLength c) := by
  obtain ⟨frame, e, hframe, hattr⟩ := bind_eq_ok.1 h
  obtain ⟨-, rfl⟩ := check_eq_ok.1 hattr
  obtain ⟨_, ⟨index, -, hlt, rfl⟩, hrest, hpos⟩ := (reads_readFrame c frame e).1 hframe
  have hdeclared : declaredLength c = frame.info.length := by
    rw [declaredLength, hrest, Layout.frame, List.append_assoc, List.append_assoc,
      List.drop_left' (length_word index), List.take_left' (Layout.length_number 4 _),
      bigEndian_number hlt]
  have hlength : (Layout.frame index frame.info).length = 6 + declaredLength c := by
    rw [Layout.frame, List.length_append, List.length_append, length_word, Layout.length_number,
      hdeclared]
  rw [← hlength, hpos, hrest, List.drop_left, List.length_append]
  exact ⟨Nat.le_add_right _ _, rfl, rfl⟩

end Attribute

namespace Member

variable {pool : Pool}

def readHead (pool : Pool) : Reader (UInt16 × UInt16 × UInt16) := do
  let access ← word16
  let name ← Attribute.textIndex pool
  let descriptor ← Attribute.textIndex pool
  return (access, name, descriptor)

def readWith (pool : Pool) (attributes : Reader (List Attribute)) : Reader Member := do
  let (access, name, descriptor) ← readHead pool
  let attributes ← attributes
  return ⟨access, name, descriptor, attributes⟩

theorem readWith_readAll : readWith pool (Attribute.readAll pool) = read pool := by
  simp only [readWith, readHead, read, bind_assoc, pure_bind]

theorem readWith_congr_at {attributes : Reader (List Attribute)} {c : Cursor}
    (h : ∀ head d, readHead pool c = .ok (head, d) → attributes d = Attribute.readAll pool d) :
    readWith pool attributes c = read pool c := by
  rw [← readWith_readAll]
  apply bind_congr_at rfl
  intro head d hhead
  exact bind_congr_at (h head d hhead) fun _ _ _ => rfl

theorem advances_readHead (pool : Pool) : (readHead pool).Advances :=
  advances_word16.bind fun _ => (Attribute.incremental_textIndex pool).advances.bind fun _ =>
    (Attribute.incremental_textIndex pool).advances.bind fun _ => advances_pure _

end Member

namespace ClassFile

open Attribute

variable {bytes : Bytes} {pool : Pool}

def readHead : Reader ClassFile := do
  readMagic
  let (minor, major) ← readVersion
  let pool ← Pool.read
  let access ← word16
  let thisClass ← classIndex pool
  let superClass ← optionalIndex pool.className
  let interfaces ← counted (classIndex pool)
  return ⟨minor, major, pool, access, thisClass, superClass, interfaces, [], [], []⟩

def readClassWith (attributes : Pool → Reader (List Attribute)) : Reader ClassFile := do
  let head ← readHead
  let fields ← counted (Member.readWith head.pool (attributes head.pool))
  let methods ← counted (Member.readWith head.pool (attributes head.pool))
  let attributes ← attributes head.pool
  return { head with fields, methods, attributes }

theorem readClassWith_readAll : readClassWith readAll = readClass := by
  simp only [readClassWith, readHead, readClass, Member.readWith_readAll, bind_assoc, pure_bind]

/-- The class that the bytes spell, where code that is nested deeper than `depth` is left to
`beyond`. -/
def readUpTo (beyond : Pool → Reader Attribute) (depth : Nat) (bytes : Bytes) :
    Except Fault ClassFile :=
  match readClassWith (fun pool => readAllWith pool (readCodeUpTo pool (beyond pool) depth))
    (.start bytes) with
  | .error fault => .error fault
  | .ok (c, rest) =>
    if rest.rest.isEmpty then .ok c else .error (.trailingBytes rest.rest.length)

/-- Where the run over a class comes to the attributes of a field, of a method and of the class. -/
inductive ComesTo (bytes : Bytes) : Pool → Cursor → Prop
  | ofField {head : ClassFile} {c d e : Cursor} {parts : UInt16 × UInt16 × UInt16}
      (hhead : readHead (.start bytes) = .ok (head, c))
      (hfield : Visits (Member.read head.pool) c d)
      (hparts : Member.readHead head.pool d = .ok (parts, e)) : ComesTo bytes head.pool e
  | ofMethod {head : ClassFile} {fields : List Member} {c c' d e : Cursor}
      {parts : UInt16 × UInt16 × UInt16}
      (hhead : readHead (.start bytes) = .ok (head, c))
      (hfields : counted (Member.read head.pool) c = .ok (fields, c'))
      (hmethod : Visits (Member.read head.pool) c' d)
      (hparts : Member.readHead head.pool d = .ok (parts, e)) : ComesTo bytes head.pool e
  | ofClass {head : ClassFile} {fields methods : List Member} {c d e : Cursor}
      (hhead : readHead (.start bytes) = .ok (head, c))
      (hfields : counted (Member.read head.pool) c = .ok (fields, d))
      (hmethods : counted (Member.read head.pool) d = .ok (methods, e)) : ComesTo bytes head.pool e

/-- The code bodies that a run over a class is inside of at one time, the innermost first. -/
inductive Entered (bytes : Bytes) (pool : Pool) : List Frame → Prop
  | outermost {c : Cursor} {frame : Frame} (hcomes : ComesTo bytes pool c) (hopens : Opens pool c frame)
      (hname : frame.name = "Code") : Entered bytes pool [frame]
  | inside {outer inner : Frame} {frames : List Frame} (houter : Entered bytes pool (outer :: frames))
      (hencloses : Encloses pool outer inner) (hname : inner.name = "Code") :
      Entered bytes pool (inner :: outer :: frames)

theorem readClassWith_congr_at {attributes : Pool → Reader (List Attribute)}
    (h : ∀ pool c, ComesTo bytes pool c → attributes pool c = readAll pool c) :
    readClassWith attributes (.start bytes) = readClass (.start bytes) := by
  rw [← readClassWith_readAll]
  apply bind_congr_at rfl
  intro head c hhead
  rw [Member.readWith_readAll]
  apply bind_congr_at
  · apply counted_congr_at
    intro d hfield
    exact Member.readWith_congr_at fun parts e hparts => h _ _ (.ofField hhead hfield hparts)
  intro fields c' hfields
  apply bind_congr_at
  · apply counted_congr_at
    intro d hmethod
    exact Member.readWith_congr_at fun parts e hparts => h _ _ (.ofMethod hhead hfields hmethod hparts)
  intro methods d hmethods
  exact bind_congr_at (h _ _ (.ofClass hhead hfields hmethods)) fun _ _ _ => rfl

theorem shortens_readHead : readHead.Shortens 10 := by
  have hmagic : readMagic.Shortens 4 := shortens_word32.bind fun _ => shortens_guard _ _
  have hversion : readVersion.Shortens 4 :=
    shortens_word16.bind (n := 2) fun _ => shortens_word16.bind fun _ => shortens_guard _ _
  apply hmagic.bind (n := 6)
  intro _
  apply hversion.bind (n := 2)
  intro version
  apply Pool.incremental_read.advances.shortens.bind (n := 2)
  intro pool
  apply shortens_word16.bind (n := 0)
  intro access
  -- there is more in front of the fields, but these bytes are enough
  have hclass := (incremental_classIndex pool).advances
  apply Advances.shortens
  exact hclass.bind fun _ => (advances_optionalIndex _).bind fun _ => (advances_counted hclass).bind fun _ =>
    advances_pure _

theorem ComesTo.length_le {c : Cursor} (h : ComesTo bytes pool c) :
    10 + c.rest.length ≤ bytes.length := by
  have hmember (pool : Pool) : (Member.read pool).Advances := (Member.incremental_read pool).advances
  cases h with
  | ofField hhead hfield hparts =>
      have h₁ : 10 + _ ≤ bytes.length := shortens_readHead _ _ _ hhead
      have h₂ := hfield.length_le (hmember _)
      have h₃ := (Member.advances_readHead _).length_le hparts
      omega
  | ofMethod hhead hfields hmethod hparts =>
      have h₁ : 10 + _ ≤ bytes.length := shortens_readHead _ _ _ hhead
      have h₂ := (advances_counted (hmember _)).length_le hfields
      have h₃ := hmethod.length_le (hmember _)
      have h₄ := (Member.advances_readHead _).length_le hparts
      omega
  | ofClass hhead hfields hmethods =>
      have h₁ : 10 + _ ≤ bytes.length := shortens_readHead _ _ _ hhead
      have h₂ := (advances_counted (hmember _)).length_le hfields
      have h₃ := (advances_counted (hmember _)).length_le hmethods
      omega

/-- One more code body takes 18 bytes more of the input, the outermost one too. -/
theorem Entered.length_le {frames : List Frame} (h : Entered bytes pool frames) :
    ∃ inner ∈ frames.head?, inner.info.length + 18 * frames.length ≤ bytes.length := by
  induction h with
  | outermost hcomes hopens hname =>
      have h₁ := hcomes.length_le
      have h₂ := hopens.length_le
      exact ⟨_, rfl, by rw [List.length_singleton]; omega⟩
  | inside houter hencloses hname ih =>
      obtain ⟨outer, houter, hle⟩ := ih
      obtain rfl := Option.some.inj houter
      have hshorter := hencloses.length_le
      exact ⟨_, rfl, by rw [List.length_cons]; omega⟩

theorem readUpTo_eq_read (beyond : Pool → Reader Attribute) {depth : Nat}
    (h : bytes.length / 18 ≤ depth) : readUpTo beyond depth bytes = read bytes := by
  have hclass : readClassWith (fun pool => readAllWith pool (readCodeUpTo pool (beyond pool) depth))
      (.start bytes) = readClass (.start bytes) := by
    apply readClassWith_congr_at
    intro pool c hcomes
    have hlength := hcomes.length_le
    exact readAllWith_readCodeUpTo _ (by omega)
  rw [readUpTo, hclass]
  rfl

/-- Reading attributes comes to an end. A body in code is at least 18 bytes shorter than the code around
it, and what would be done with code below the depth that this leaves has no part in the outcome. So a
run over `n` bytes is never inside of more than `n / 18` code bodies at one time. An attribute that is
read takes its frame with the declared number of bytes, whatever it is. -/
theorem nesting_bounded :
    (∀ (pool : Pool) (outer inner : Frame), Encloses pool outer inner →
      inner.info.length + 18 ≤ outer.info.length) ∧
    (∀ (pool : Pool) (c : Cursor) (beyond : Reader Attribute) (depth : Nat),
      (c.rest.length + 10) / 18 ≤ depth →
        readAllWith pool (readCodeUpTo pool beyond depth) c = readAll pool c) ∧
    (∀ (bytes : Bytes) (pool : Pool) (frames : List Frame), Entered bytes pool frames →
      frames.length ≤ bytes.length / 18) ∧
    (∀ (bytes : Bytes) (beyond : Pool → Reader Attribute) (depth : Nat),
      bytes.length / 18 ≤ depth → readUpTo beyond depth bytes = read bytes) ∧
    ∀ (pool : Pool) (c d : Cursor) (attr : Attribute), readFramed pool c = .ok (attr, d) →
      6 + declaredLength c ≤ c.rest.length ∧ d.rest = c.rest.drop (6 + declaredLength c) ∧
        d.pos = c.pos + (6 + declaredLength c) := by
  refine ⟨fun _ _ _ h => h.length_le, fun _ _ beyond _ h => readAllWith_readCodeUpTo beyond h,
    fun bytes pool frames h => ?_, fun _ beyond _ h => readUpTo_eq_read beyond h,
    fun _ _ _ _ h => advance_of_readFramed h⟩
  obtain ⟨inner, -, hle⟩ := h.length_le
  omega

def nestedPool : Pool :=
  ⟨#[none, some (.utf8 "A"), some (.classRef 1), some (.utf8 "Code")]⟩

def emptyCode : Frame := ⟨"Code", []⟩

def tightCode : Frame := ⟨"Code", [0, 0, 0, 0, 0, 0, 0, 0, 0, 0, 0, 1, 0, 3, 0, 0, 0, 0]⟩

def nestedBytes : Bytes :=
  [0xCA, 0xFE, 0xBA, 0xBE, 0, 0, 0, 52, 0, 4, 1, 0, 1, 65, 7, 0, 1, 1, 0, 4, 67, 111, 100, 101, 0, 0x21,
    0, 2, 0, 0, 0, 0, 0, 0, 0, 0, 0, 1, 0, 3, 0, 0, 0, 18] ++ tightCode.info

theorem encloses_tightCode : Encloses nestedPool tightCode emptyCode := by
  refine ⟨rfl, ⟨0, 0, [], [], []⟩, ⟨10, [0, 1, 0, 3, 0, 0, 0, 0]⟩, by decide +kernel, ?_⟩
  refine ⟨⟨12, [0, 3, 0, 0, 0, 0]⟩, ⟨18, []⟩, ⟨1, _, rfl, 0, by decide, [], rfl⟩, by decide +kernel⟩

theorem entered_nestedBytes : Entered nestedBytes nestedPool [emptyCode, tightCode] := by
  have hpool : Pool.read ⟨8, nestedBytes.drop 8⟩ = .ok (nestedPool, ⟨24, nestedBytes.drop 24⟩) := by
    decide +kernel
  have hhead : readHead (.start nestedBytes) =
      .ok (⟨0, 52, nestedPool, 0x21, 2, 0, [], [], [], []⟩, ⟨32, nestedBytes.drop 32⟩) :=
    bind_eq_ok.2 ⟨(), _, rfl, bind_eq_ok.2 ⟨(0, 52), _, rfl, bind_eq_ok.2 ⟨nestedPool, _, hpool, rfl⟩⟩⟩
  refine .inside (.outermost (.ofClass hhead rfl rfl) ?_ rfl) encloses_tightCode rfl
  exact ⟨⟨38, nestedBytes.drop 38⟩, ⟨62, []⟩, ⟨1, _, rfl, 0, by decide, [], rfl⟩, by decide +kernel⟩

/-- The bound of 18 bytes is met exactly, by a run that fails inside of both bodies. -/
theorem nesting_bounded_sample :
    (Encloses nestedPool tightCode emptyCode ∧ emptyCode.info.length + 18 ≤ tightCode.info.length) ∧
    (∀ beyond, readAllWith nestedPool (readCodeUpTo nestedPool beyond 2) ⟨36, nestedBytes.drop 36⟩ =
      readAll nestedPool ⟨36, nestedBytes.drop 36⟩) ∧
    (Entered nestedBytes nestedPool [emptyCode, tightCode] ∧
      [emptyCode, tightCode].length ≤ nestedBytes.length / 18) ∧
    (∀ beyond, readUpTo beyond 3 nestedBytes = .error (.unexpectedEnd 0 2)) ∧
    readFramed nestedPool ⟨0, [0, 1, 0, 0, 0, 2, 7, 8, 9]⟩ = .ok (.unknown "A" [7, 8], ⟨8, [9]⟩) ∧
      8 = 0 + (6 + declaredLength ⟨0, [0, 1, 0, 0, 0, 2, 7, 8, 9]⟩) := by
  obtain ⟨hencloses, htable, hentered, hupTo, hframed⟩ := nesting_bounded
  have hread : read nestedBytes = .error (.unexpectedEnd 0 2) :=
    Checks.error?_eq_some.1 (by decide +kernel)
  have hunknown : readFramed nestedPool ⟨0, [0, 1, 0, 0, 0, 2, 7, 8, 9]⟩ =
      .ok (.unknown "A" [7, 8], ⟨8, [9]⟩) := by
    refine bind_eq_ok.2 ⟨⟨"A", [7, 8]⟩, ⟨8, [9]⟩, by decide +kernel, check_eq_ok.2 ⟨?_, rfl⟩⟩
    rw [ofFrame_eq]
    rfl
  refine ⟨⟨encloses_tightCode, hencloses _ _ _ encloses_tightCode⟩,
    fun beyond => htable _ _ beyond 2 (by decide),
    ⟨entered_nestedBytes, hentered _ _ _ entered_nestedBytes⟩, fun beyond => ?_, hunknown,
    (hframed _ _ _ _ hunknown).2.2⟩
  rw [hupTo nestedBytes beyond 3 (by decide), hread]

end ClassFile

end ClassListing
