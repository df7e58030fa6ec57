import Mathlib.Algebra.Ring.Nat
import Mathlib.Data.List.Basic

namespace Chronos.ByteCodec

-- The bytes of a number, the lowest first.
def toBytes : Nat → Nat → List UInt8
  | 0,_ => []
  | w+1,n => UInt8.ofNat (n%256)::toBytes w (n/256)

def ofBytes : List UInt8 → Nat
  | [] => 0
  | byte::rest => byte.toNat+256*ofBytes rest

theorem toBytes_length (w n : Nat) : (toBytes w n).length = w := by
  induction w generalizing n with
  | zero => rfl
  | succ w ih => simp [toBytes,ih]

theorem ofBytes_lt (bytes : List UInt8) : ofBytes bytes < 256^bytes.length := by
  induction bytes with
  | nil => decide
  | cons byte rest ih =>
    have small := byte.toNat_lt
    rw [ofBytes,List.length_cons,Nat.pow_succ]
    omega

theorem toBytes_ofBytes (bytes : List UInt8) : toBytes bytes.length (ofBytes bytes) = bytes := by
  induction bytes with
  | nil => rfl
  | cons byte rest ih =>
    have small := byte.toNat_lt
    have low : (byte.toNat+256*ofBytes rest)%256 = byte.toNat := by omega
    have high : (byte.toNat+256*ofBytes rest)/256 = ofBytes rest := by omega
    rw [ofBytes,List.length_cons,toBytes,low,high,ih,UInt8.ofNat_toNat]

theorem ofBytes_toBytes {w n : Nat} (fits : n < 256^w) : ofBytes (toBytes w n) = n := by
  induction w generalizing n with
  | zero =>
    obtain rfl : n = 0 := by simpa using fits
    rfl
  | succ w ih =>
    rw [Nat.pow_succ] at fits
    have digit : (UInt8.ofNat (n%256)).toNat = n%256 := by
      rw [UInt8.toNat_ofNat']
      omega
    rw [toBytes,ofBytes,ih (by omega),digit]
    omega

end Chronos.ByteCodec

namespace Chronos

-- A type with an image of its own on `width` bytes: the images are just the byte
-- strings that decode.
structure Codec (A : Type) where
  width : Nat
  encode : A → List UInt8
  decode : List UInt8 → Option A
  length : ∀ a, (encode a).length = width
  exact : ∀ bytes a, bytes.length = width → (decode bytes = some a ↔ encode a = bytes)

namespace Codec
open ByteCodec

variable {A B C : Type}

theorem decode_encode (c : Codec A) (a : A) : c.decode (c.encode a) = some a := (c.exact _ a (c.length a)).mpr rfl

def number (w : Nat) (code : A → Nat) (value : Nat → A) (fits : ∀ a, code a < 256^w) (back : ∀ a, value (code a) = a)
    (onto : ∀ n, n < 256^w → code (value n) = n) : Codec A where
  width := w
  encode a := toBytes w (code a)
  decode bytes := some (value (ofBytes bytes))
  length a := toBytes_length w (code a)
  exact bytes a size := by
    subst size
    have bound := ofBytes_lt bytes
    rw [Option.some.injEq]
    constructor
    · rintro rfl
      rw [onto _ bound,toBytes_ofBytes]
    · rintro same
      rw [← same,ofBytes_toBytes (fits a),back]

def enumeration (values : List A) (code : A → Nat) (small : ∀ a, code a < 256) (named : ∀ n a, values[n]? = some a ↔ code a = n) :
    Codec A where
  width := 1
  encode a := [UInt8.ofNat (code a)]
  decode bytes := values[ofBytes bytes]?
  length _ := rfl
  exact bytes a size := by
    obtain ⟨byte,rfl⟩ := List.length_eq_one_iff.mp size
    have bound := small a
    rw [named,List.singleton_inj]
    constructor
    · intro same
      rw [same]
      simp [ofBytes]
    · rintro rfl
      rw [ofBytes,ofBytes,UInt8.toNat_ofNat']
      omega

def bytes (n : Nat) : Codec (Vector UInt8 n) where
  width := n
  encode v := v.toList
  decode bytes := if size : bytes.length = n then some ⟨bytes.toArray,by simpa using size⟩ else none
  length v := by simp
  exact bytes v size := by
    obtain ⟨array,rfl⟩ := v
    rw [dif_pos size,Option.some.injEq,Vector.mk.injEq]
    constructor
    · rintro rfl
      simp [Vector.toList]
    · rintro rfl
      simp [Vector.toList]

def pair (c : Codec A) (d : Codec B) : Codec (A × B) where
  width := c.width+d.width
  encode ab := c.encode ab.1++d.encode ab.2
  decode bytes := (c.decode (bytes.take c.width)).bind fun a => (d.decode (bytes.drop c.width)).map fun b => (a,b)
  length ab := by rw [List.length_append,c.length,d.length]
  exact bytes ab size := by
    obtain ⟨a,b⟩ := ab
    have front : (bytes.take c.width).length = c.width := by
      rw [List.length_take]
      omega
    have back : (bytes.drop c.width).length = d.width := by
      rw [List.length_drop]
      omega
    simp only [Option.bind_eq_some_iff,Option.map_eq_some_iff,Prod.mk.injEq]
    constructor
    · rintro ⟨_,first,_,second,rfl,rfl⟩
      rw [(c.exact _ _ front).mp first,(d.exact _ _ back).mp second,List.take_append_drop]
    · intro same
      refine ⟨a,(c.exact _ _ front).mpr ?_,b,(d.exact _ _ back).mpr ?_,rfl,rfl⟩
      · rw [← same,List.take_left' (c.length a)]
      · rw [← same,List.drop_left' (c.length a)]

def pack (c : Codec A) (make : A → B) (parts : B → A) (made : ∀ b, make (parts b) = b) (parted : ∀ a, parts (make a) = a) :
    Codec B where
  width := c.width
  encode b := c.encode (parts b)
  decode bytes := (c.decode bytes).map make
  length b := c.length (parts b)
  exact bytes b size := by
    rw [Option.map_eq_some_iff]
    constructor
    · rintro ⟨a,found,rfl⟩
      rw [parted]
      exact (c.exact _ _ size).mp found
    · intro same
      exact ⟨parts b,(c.exact _ _ size).mpr same,made b⟩

end Codec

structure Member (R : Type) where
  offset : Nat
  align : Nat
  width : Nat
  bytes : R → List UInt8
  length : ∀ r, (bytes r).length = width

namespace Member
variable {A R : Type}

def field (offset align : Nat) (c : Codec A) (get : R → A) : Member R :=
  ⟨offset,align,c.width,fun r => c.encode (get r),fun r => c.length (get r)⟩

def alignUp (position align : Nat) : Nat := (position+align-1)/align*align

-- Where a compiler puts the members of a struct: each at the next address of its
-- alignment. The last one is the end of the struct without its tail padding.
def place : Nat → List (Member R) → List Nat
  | position,[] => [position]
  | position,m::rest => alignUp position m.align::place (alignUp position m.align+m.width) rest

def Tiles : Nat → List (Member R) → Nat → Prop
  | position,[],size => position = size
  | position,m::rest,size => m.offset = position ∧ Tiles (position+m.width) rest size

instance tiles : (position : Nat) → (members : List (Member R)) → (size : Nat) → Decidable (Tiles position members size)
  | position,[],size => inferInstanceAs (Decidable (position = size))
  | position,m::rest,size =>
    have := tiles (position+m.width) rest size
    inferInstanceAs (Decidable (m.offset = position ∧ Tiles (position+m.width) rest size))

variable {members : List (Member R)}

theorem tiles_from {position size : Nat} (tiles : Tiles position members size) (member : m ∈ members) : position ≤ m.offset := by
  induction members generalizing position with
  | nil => cases member
  | cons first rest ih =>
    obtain ⟨here,more⟩ := tiles
    rcases List.mem_cons.mp member with rfl | later
    · exact Nat.le_of_eq here.symm
    · exact Nat.le_trans (Nat.le_add_right _ _) (ih more later)

theorem tiles_slice {position size : Nat} (tiles : Tiles position members size) (member : m ∈ members) (r : R) :
    ((members.flatMap fun m => m.bytes r).drop (m.offset-position)).take m.width = m.bytes r := by
  induction members generalizing position with
  | nil => cases member
  | cons first rest ih =>
    obtain ⟨here,more⟩ := tiles
    rw [List.flatMap_cons]
    rcases List.mem_cons.mp member with rfl | later
    · rw [here,Nat.sub_self,List.drop_zero,List.take_left' (m.length r)]
    · have past := tiles_from more later
      have skip : m.offset-position = (first.bytes r).length+(m.offset-(position+first.width)) := by
        rw [first.length]
        omega
      rw [skip,List.drop_append,List.drop_eq_nil_of_le (Nat.le_add_right _ _),Nat.add_sub_cancel_left,List.nil_append]
      exact ih more later

end Member
end Chronos
