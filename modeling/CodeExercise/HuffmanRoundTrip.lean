import CodeExercise.HuffmanTree

/-!
What `HuffmanEncoder` writes and what `HuffmanDecoder` makes of it.
-/
namespace CodeExercise.Huffman
open Files SortedMaps List Option

lemma char_eq (b : UInt8) : char b = if b.toNat < 128 then (b.toNat : Int) else b.toNat-256 := by
  have small := b.toNat_lt
  change b.toBitVec.toInt = _
  rw [BitVec.toInt_eq_toNat_cond]
  simp only [UInt8.toNat_toBitVec]
  split <;> split <;> omega

lemma char_range (b : UInt8) : -128 ≤ char b ∧ char b ≤ 127 := by
  have small := b.toNat_lt
  rw [char_eq]
  split <;> omega

lemma byteOf_char (b : UInt8) : byteOf (char b) = b := by
  have small := b.toNat_lt
  have value : (char b%256).toNat = b.toNat := by
    rw [char_eq]
    split <;> omega
  rw [byteOf,value,UInt8.ofNat_toNat]

lemma char_eq_compound_iff (b : UInt8) : char b = compound ↔ b = 255 := by
  constructor
  · intro same
    rw [← byteOf_char b,same]
    rfl
  · rintro rfl
    rfl

lemma mem_letterCount (input : Bytes) (k : Int) :
    (∃ v, (k,v) ∈ (letterCount input).entries) ↔ ∃ b ∈ input, char b = k := by
  have all : ∀ m : SortedMap Int Int,
      (∃ v, (k,v) ∈ (input.foldl (fun m b => m.set (char b) ((m.get (char b)).getD 0+1)) m).entries) ↔
        (∃ v, (k,v) ∈ m.entries) ∨ ∃ b ∈ input, char b = k := by
    induction input with
    | nil => simp
    | cons b input ih =>
      intro m
      rw [foldl_cons,ih]
      have step : (∃ v, (k,v) ∈ (m.set (char b) ((m.get (char b)).getD 0+1)).entries) ↔
          char b = k ∨ ∃ v, (k,v) ∈ m.entries := by
        simp only [SortedMap.set,mem_setEntry_iff m.sorted]
        by_cases same : char b = k
        · simp [same]
        · simp [same,Ne.symm same]
      rw [step]
      simp only [exists_mem_cons_iff]
      tauto
  simpa [letterCount,SortedMap.empty] using all .empty

lemma nodeIdx_get (here : letters.entries[i]? = some e) :
    (nodeIdx letters).get e.1 = some i := by
  have entry : (leaves letters).zipIdx.map (fun n => (n.1.letter,n.2)) = letters.entries.zipIdx.map (fun n => (n.1.1,n.2)) := by
    refine ext_getElem? fun j => ?_
    simp only [getElem?_map,getElem?_zipIdx,getElem?_leaves,Option.map_map]
    rfl
  have sorted : (letters.entries.zipIdx.map (fun n => (n.1.1,n.2))).Pairwise (fun a b => a.1 < b.1) := by
    have same : (letters.entries.zipIdx.map Prod.fst).Pairwise (fun a b => a.1 < b.1) := by
      rw [zipIdx_map_fst]
      exact letters.sorted
    rw [pairwise_map] at same ⊢
    exact same
  rw [get_eq_some_iff,nodeIdx,entry,mem_setAll sorted]
  refine .inl (List.mem_map.mpr ⟨(e,i),?_,rfl⟩)
  exact mem_zipIdx_iff_getElem?.mpr here

@[simp] lemma length_serialize (np : Node) : np.serialize.length = Node.size := by simp [Node.serialize,Node.size]

lemma length_flatMap_serialize (nodes : List Node) : (nodes.flatMap Node.serialize).length = nodes.length*Node.size := by
  induction nodes with
  | nil => rfl
  | cons np nodes ih =>
    simp only [flatMap_cons,length_append,length_serialize,ih,length_cons,Nat.add_mul]
    omega

lemma length_readNodes (buf : Bytes) (n : Nat) : (readNodes buf n).length = n := by
  induction n generalizing buf with
  | zero => rfl
  | succ n ih => simp [readNodes,ih]

/-- The fields of a node that fit an `int`. -/
def Node.Small (np : Node) : Prop :=
  (-2^31 ≤ np.letter ∧ np.letter < 2^31) ∧ (-2^31 ≤ np.left ∧ np.left < 2^31) ∧ -2^31 ≤ np.right ∧ np.right < 2^31

lemma unserialize_serialize {np : Node} (small : np.Small) : (Node.unserialize np.serialize).letter = np.letter ∧
    (Node.unserialize np.serialize).left = np.left ∧ (Node.unserialize np.serialize).right = np.right := by
  obtain ⟨letter,left,right⟩ := small
  have first : ∀ n rest, (intBytes n ++ rest).take 4 = intBytes n := fun n rest => take_left' (length_intBytes n)
  have behind : ∀ n rest k, (intBytes n ++ rest).drop (4+k) = rest.drop k := by
    intro n rest k
    rw [← drop_drop,drop_left' (length_intBytes n)]
  have last : ∀ n, (intBytes n).take 4 = intBytes n := fun n => take_of_length_le (by simp)
  simp only [Node.unserialize,Node.serialize,append_assoc,first,show 12 = 4+(4+(4+0)) from rfl,
    show 16 = 4+(4+(4+(4+0))) from rfl,behind,drop_zero,last]
  exact ⟨intOf_intBytes letter.1 letter.2,intOf_intBytes left.1 left.2,intOf_intBytes right.1 right.2⟩

lemma same_readNodes (small : ∀ np ∈ nodes, np.Small) :
    Same nodes (readNodes (nodes.flatMap Node.serialize) nodes.length) := by
  refine ⟨length_readNodes _ _,?_⟩
  induction nodes with
  | nil => simp
  | cons first nodes ih =>
    intro i np here
    simp only [flatMap_cons,length_cons,readNodes,take_left' (length_serialize first),
      drop_left' (length_serialize first)]
    cases i with
    | zero =>
      obtain rfl : first = np := by simpa using here
      exact ⟨_,rfl,unserialize_serialize (small first mem_cons_self)⟩
    | succ i =>
      simp only [getElem?_cons_succ] at here ⊢
      exact ih (fun np mem => small np (mem_cons_of_mem _ mem)) i np here

/-- A file with these nodes and bits. -/
structure Encoded (out : File) (nodes : List Node) (bits : List Bool) : Prop where
  nnodes : out.slice 0 4 = intBytes nodes.length
  tree : out.slice 4 (nodes.length*Node.size) = nodes.flatMap Node.serialize
  nbits : out.slice (4+nodes.length*Node.size) 4 = intBytes bits.length
  packed : Packed out (4+nodes.length*Node.size+4) bits
  size : 4+nodes.length*Node.size+4 ≤ out.size

section
variable {nodes : List Node} {bits : List Bool} {idx : SortedMap Int Nat} {input : Bytes} {codes : UInt8 → List Bool}

lemma decode_encoded (encoded : Encoded out nodes bits) (few : nodes.length < 2^31)
    (small : bits.length < 2^31) (fuel : Nat) :
    decode fuel out = decodeLoop (readNodes (nodes.flatMap Node.serialize) nodes.length) fuel
      (.new ⟨out,4+nodes.length*Node.size+4⟩ bits.length) := by
  have size := encoded.size
  have nnodes : intOf (intBytes nodes.length) = nodes.length := intOf_intBytes (by omega) (by omega)
  have nbits : intOf (intBytes bits.length) = bits.length := intOf_intBytes (by omega) (by omega)
  have positive : ¬ (nodes.length : Int) < 0 := by omega
  have first : out.read 0 4 = some (intBytes nodes.length) := by
    rw [read_eq_some (by omega),encoded.nnodes]
  have second : out.read 4 (nodes.length*Node.size) = some (nodes.flatMap Node.serialize) := by
    rw [read_eq_some (by omega),encoded.tree]
  have third : out.read (4+nodes.length*Node.size) 4 = some (intBytes bits.length) := by
    rw [read_eq_some (by omega),encoded.nbits]
  simp only [decode,readTree,decodeAndOutput,Fd.read,Nat.zero_add,first,second,third,nnodes,nbits,if_neg positive,
    map_some,bind_some,Int.toNat_natCast]

lemma lettersEncodeAndOutput_eq (coded : ∀ c ∈ input, code nodes idx c = some (codes c)) (f : File) (start : Nat) :
    ∃ fd, lettersEncodeAndOutput nodes idx input ⟨f,start⟩ = some ((input.flatMap codes).length,fd) ∧
      Packed fd.file start (input.flatMap codes) ∧ ∀ i, i < start → fd.file.byte i = f.byte i := by
  have run : ∀ (o : Output), input.foldlM (fun o c => (code nodes idx c).map (fun bits => bits.foldl Output.add o)) o =
      some ((input.flatMap codes).foldl Output.add o) := by
    induction input with
    | nil => exact fun _ => rfl
    | cons c input ih =>
      intro o
      rw [foldlM_cons,coded c mem_cons_self,flatMap_cons,foldl_append]
      exact ih (fun c mem => coded c (mem_cons_of_mem _ mem)) _
  obtain ⟨packed,nbits,kept⟩ := packed_writeBits (input.flatMap codes) f start
  refine ⟨_,?_,packed,kept⟩
  rw [lettersEncodeAndOutput,run,map_some,← nbits,writeBits]

lemma outputTree_eq (nodes : List Node) : ∃ f, outputTree nodes ⟨.zeros 0,0⟩ = ⟨f,4+nodes.length*Node.size⟩ ∧
    f.size = 4+nodes.length*Node.size ∧ f.slice 0 4 = intBytes nodes.length ∧
    f.slice 4 (nodes.length*Node.size) = nodes.flatMap Node.serialize := by
  have length := length_flatMap_serialize nodes
  have first : ((File.zeros 0).write 0 (intBytes nodes.length)).size = 4 := by
    rw [size_write (Nat.zero_le _),length_intBytes]
    rfl
  refine ⟨((File.zeros 0).write 0 (intBytes nodes.length)).write 4 (nodes.flatMap Node.serialize),?_,?_,?_,?_⟩
  · simp only [outputTree,Fd.write,length,length_intBytes,Nat.zero_add]
  · rw [size_write (by omega),length,first]
    omega
  · rw [slice_write_of_disjoint (by omega)]
    have := slice_write_self (File.zeros 0) 0 (intBytes nodes.length)
    rwa [length_intBytes] at this
  · have := slice_write_self ((File.zeros 0).write 0 (intBytes nodes.length)) 4 (nodes.flatMap Node.serialize)
    rwa [length] at this

lemma encode_eq (codes : UInt8 → List Bool) (built : buildTree heap (letterCount input) = (nodes,[root]))
    (coded : ∀ c ∈ input, code nodes (nodeIdx (letterCount input)) c = some (codes c)) :
    ∃ out, encode heap input = some out ∧ Encoded out nodes (input.flatMap codes) := by
  obtain ⟨f,output,size,nnodes,tree⟩ := outputTree_eq nodes
  obtain ⟨fd,letters,packed,kept⟩ := lettersEncodeAndOutput_eq coded f (f.size+4)
  refine ⟨fd.file.write (4+nodes.length*Node.size) (intBytes (input.flatMap codes).length),?_,?_,?_,?_,?_,?_⟩
  · simp only [encode,built,length_singleton,if_true,output,reserveRoomInt,letters,map_some,Fd.write]
  · rw [slice_write_of_disjoint (by omega),slice_congr (g := f) (fun i _ high => kept i (by omega)),nnodes]
  · rw [slice_write_of_disjoint (by omega),slice_congr (g := f) (fun i _ high => kept i (by omega)),tree]
  · have := slice_write_self fd.file (4+nodes.length*Node.size) (intBytes (input.flatMap codes).length)
    rwa [length_intBytes] at this
  · rw [size] at packed
    exact packed.write (.inl (by simp))
  · have some : intBytes (input.flatMap codes).length ≠ [] := ne_nil_of_length_pos (by simp)
    simp only [File.write,if_neg some,length_intBytes]
    omega

end

section
variable {nodes : List Node} {root : Nat}

/-- A byte whose code leads to its letter. -/
structure Spelled (nodes : List Node) (root : Nat) (code : List Bool) (c : UInt8) : Prop where
  nonempty : code ≠ []
  leads : ∃ (i : Nat) (np : Node), Leads nodes root code i ∧ nodes[i]? = some np ∧ np.letter = char c
  letter : char c ≠ compound

variable {s : BitStream} {fuel : Nat}

lemma decodeLoop_spelled (root : Nat) (length : nodes.length = root+1)
    (spelled : ∀ c ∈ input, Spelled nodes root (codes c) c) (left : s.Left held rest)
    (all : held++rest = input.flatMap codes) (enough : (input.flatMap codes).length ≤ fuel) :
    decodeLoop nodes fuel s = some input := by
  have remain := left.remain
  rw [all] at remain
  induction input generalizing s held rest fuel with
  | nil =>
    have ended : s.empty = true := by simp [BitStream.empty,remain]
    cases fuel <;> rw [decodeLoop,if_pos ended]
  | cons c input ih =>
    obtain ⟨nonempty,⟨i,np,leads,here,letter⟩,inner⟩ := spelled c mem_cons_self
    have positive : 0 < (codes c).length := length_pos_iff.mpr nonempty
    rw [flatMap_cons] at all remain enough
    rw [length_append] at enough remain
    have more : ¬ s.empty = true := by
      simp only [BitStream.empty,decide_eq_true_eq]
      omega
    obtain _ | fuel := fuel
    · omega
    obtain ⟨s',held',rest',left',all',walked⟩ := leads (input.flatMap codes) (fuel+1-(codes c).length) left all
    have remain' := left'.remain
    rw [all'] at remain'
    have again := ih (fun c mem => spelled c (mem_cons_of_mem _ mem)) left' all' (by omega : _ ≤ fuel) remain'
    have start : ((nodes.length : Int)-1) = (root : Int) := by omega
    rw [show fuel+1-(codes c).length+(codes c).length = fuel+1 by omega,descend_leaf here (letter ▸ inner)] at walked
    rw [decodeLoop,if_neg more]
    simp only [start,walked,bind_some,again,map_some,letter,byteOf_char]

lemma mem_of_nodeAt (here : nodeAt nodes i = some np) : np ∈ nodes := by
  simp only [nodeAt] at here
  split at here
  · cases here
  · exact mem_of_getElem? here

lemma descend_letter
    (found : descend nodes fuel curr s = some (letter,s')) : letter ≠ compound ∧ ∃ np ∈ nodes, np.letter = letter := by
  induction fuel generalizing curr s with
  | zero =>
    rw [descend] at found
    obtain ⟨np,here,found⟩ := bind_eq_some_iff.mp found
    split at found
    · cases found
    · next leaf =>
      obtain ⟨rfl,_⟩ := Prod.mk.inj (some.inj found)
      exact ⟨leaf,np,mem_of_nodeAt here,rfl⟩
  | succ fuel ih =>
    rw [descend] at found
    obtain ⟨np,here,found⟩ := bind_eq_some_iff.mp found
    split at found
    · obtain ⟨r,_,found⟩ := bind_eq_some_iff.mp found
      exact ih found
    · next leaf =>
      obtain ⟨rfl,_⟩ := Prod.mk.inj (some.inj found)
      exact ⟨leaf,np,mem_of_nodeAt here,rfl⟩

/-- The byte whose letter is `COMPOUND` is never printed. -/
lemma decodeLoop_printed
    (letters : ∀ np ∈ nodes, np.letter = compound ∨ ∃ b, np.letter = char b) (decoded : decodeLoop nodes fuel s = some out) :
    255 ∉ out := by
  induction fuel generalizing s out with
  | zero =>
    rw [decodeLoop] at decoded
    split at decoded <;> cases decoded
    exact not_mem_nil
  | succ fuel ih =>
    rw [decodeLoop] at decoded
    split at decoded
    · cases decoded
      exact not_mem_nil
    · obtain ⟨⟨letter,s'⟩,walked,decoded⟩ := bind_eq_some_iff.mp decoded
      obtain ⟨rest,again,rfl⟩ := map_eq_some_iff.mp decoded
      obtain ⟨inner,np,mem,rfl⟩ := descend_letter walked
      obtain ⟨b,same⟩ := (letters np mem).resolve_left inner
      intro printed
      rcases mem_cons.mp printed with last | later
      · rw [same,byteOf_char] at last
        exact inner (same.trans ((char_eq_compound_iff b).mpr last.symm))
      · exact ih again later

end

lemma length_letterCount (input : Bytes) : (letterCount input).entries.length ≤ 256 := by
  have keys : ((letterCount input).entries.map Prod.fst).Nodup :=
    pairwise_map.mpr ((letterCount input).sorted.imp (fun less => less.ne))
  have chars : (letterCount input).entries.map Prod.fst ⊆ (List.range 256).map (fun n : Nat => (n : Int)-128) := by
    intro k mem
    obtain ⟨e,inside,rfl⟩ := List.mem_map.mp mem
    obtain ⟨b,_,same⟩ := (mem_letterCount input e.1).mp ⟨e.2,inside⟩
    have range := char_range b
    have below : (e.1+128).toNat < 256 := by omega
    exact List.mem_map.mpr ⟨(e.1+128).toNat,mem_range.mpr below,by omega⟩
  have length := (keys.subperm chars).length_le
  rwa [length_map,length_map,length_range] at length

variable {input : Bytes}

lemma two_letters : 2 ≤ (letterCount input).entries.length ↔ ∃ a ∈ input, ∃ b ∈ input, a ≠ b := by
  constructor
  · intro two
    obtain ⟨a,inA,charA⟩ := (mem_letterCount input _).mp ⟨_,getElem_mem (show 0 < (letterCount input).entries.length by omega)⟩
    obtain ⟨b,inB,charB⟩ := (mem_letterCount input _).mp ⟨_,getElem_mem (show 1 < (letterCount input).entries.length by omega)⟩
    refine ⟨a,inA,b,inB,?_⟩
    rintro rfl
    have less := pairwise_iff_getElem.mp (letterCount input).sorted 0 1 (by omega) (by omega) (by omega)
    exact lt_irrefl (char a) (charA.trans_lt (less.trans_eq charB.symm))
  · rintro ⟨a,inA,b,inB,different⟩
    by_contra few
    obtain ⟨v,thereA⟩ := (mem_letterCount input (char a)).mpr ⟨a,inA,rfl⟩
    obtain ⟨w,thereB⟩ := (mem_letterCount input (char b)).mpr ⟨b,inB,rfl⟩
    obtain ⟨e,one⟩ := length_eq_one_iff.mp (show (letterCount input).entries.length = 1 by
      have := length_pos_of_mem thereA
      omega)
    rw [one,mem_singleton] at thereA thereB
    have same : char a = char b := (Prod.mk.inj (thereA.trans thereB.symm)).1
    exact different (by rw [← byteOf_char a,same,byteOf_char])

section
variable {nodes : List Node} {root : Nat} {input : Bytes}

lemma Tree.small (tree : Tree (letterCount input).entries nodes [root]) : ∀ np ∈ nodes, np.Small := by
  intro np mem
  have few := length_letterCount input
  have count := tree.count
  rw [length_singleton] at count
  have sides := tree.sides np mem
  have letter : -128 ≤ np.letter ∧ np.letter ≤ 127 := by
    rcases tree.letter np mem with inner | ⟨e,inside,same⟩
    · rw [inner]
      decide
    · obtain ⟨b,_,byte⟩ := (mem_letterCount input e.1).mp ⟨e.2,inside⟩
      rw [same,← byte]
      exact char_range b
  exact ⟨by omega,by omega,by omega⟩

lemma Tree.coded (tree : Tree (letterCount input).entries nodes [root]) (same : Same nodes nodes')
    (mem : c ∈ input) : ∃ (i : Nat) (bits : List Bool), i < (letterCount input).entries.length ∧
      code nodes (nodeIdx (letterCount input)) c = some bits ∧ (i = root → bits = []) ∧ (i ≠ root → bits ≠ []) ∧
      Leads nodes' root bits i ∧ ∃ np, nodes'[i]? = some np ∧ np.letter = char c := by
  obtain ⟨v,inside⟩ := (mem_letterCount input (char c)).mpr ⟨c,mem,rfl⟩
  obtain ⟨i,here⟩ := mem_iff_getElem?.mp inside
  obtain ⟨np,there,letter⟩ := tree.leaf i _ here
  obtain ⟨np',there',letter',_,_⟩ := same.node i np there
  have total := tree.linked.root_eq
  obtain ⟨bits,climbed,nonempty,leads⟩ := leads_climb tree.linked same nodes.length
    (List.getElem?_eq_some_iff.mp there).1 (by omega)
  refine ⟨i,bits.reverse,(List.getElem?_eq_some_iff.mp here).1,?_,?_,fun other => by simpa using nonempty other,leads,np',
    there',letter'.trans letter⟩
  · simp only [code,nodeIdx_get here,getD_some,climbed,map_some]
  · rintro rfl
    rw [climb_root tree.linked] at climbed
    rw [← some.inj climbed,reverse_nil]

end

/-- What the encoder writes for a file with a byte, and the bits that the decoder reads. -/
lemma encode_spec (heap : Heap) (nonempty : input ≠ []) (small : bitCount heap input < 2^31) :
    ∃ out nodes nodes' root s, encode heap input = some out ∧ Tree (letterCount input).entries nodes [root] ∧
      Same nodes nodes' ∧
      BitStream.Left s [] (input.flatMap (fun c => (code nodes (nodeIdx (letterCount input)) c).getD [])) ∧
      ∀ fuel, decode fuel out = decodeLoop nodes' fuel s := by
  obtain ⟨c,mem⟩ := exists_mem_of_ne_nil input nonempty
  obtain ⟨v,inside⟩ := (mem_letterCount input (char c)).mpr ⟨c,mem,rfl⟩
  obtain ⟨nodes,root,built,tree⟩ := tree_buildTree heap (ne_nil_of_mem inside)
  have same := same_readNodes tree.small
  obtain ⟨out,encoded,file⟩ := encode_eq (fun c => (code nodes (nodeIdx (letterCount input)) c).getD []) built (by
    intro c mem
    obtain ⟨_,bits,_,coded,_⟩ := tree.coded same mem
    rw [coded,getD_some])
  have few : nodes.length < 2^31 := by
    have count := tree.count
    have letters := length_letterCount input
    omega
  have bits : (input.flatMap (fun c => (code nodes (nodeIdx (letterCount input)) c).getD [])).length < 2^31 := by
    rw [length_flatMap]
    simpa only [bitCount,built] using small
  exact ⟨out,nodes,_,root,_,encoded,tree,same,BitStream.left_new file.packed,decode_encoded file few bits⟩

lemma encode_nil (heap : Heap) : encode heap [] = none := by
  have perm := heap.make_perm (heapCmp []) []
  have empty := perm.eq_nil
  simp [encode,buildTree,letterCount,SortedMap.empty,leaves,empty,joinAll]

lemma round_trip_of (small : bitCount heap input < 2^31)
    (two : ∃ a ∈ input, ∃ b ∈ input, a ≠ b) (fits : 255 ∉ input) : RoundTrips heap input := by
  have nonempty : input ≠ [] := by
    obtain ⟨a,mem,_⟩ := two
    exact ne_nil_of_mem mem
  obtain ⟨out,nodes,nodes',root,s,encoded,tree,same,left,decoded⟩ := encode_spec heap nonempty small
  have letters := two_letters.mpr two
  have count := tree.count
  have total := tree.linked.root_eq
  rw [length_singleton] at count
  refine ⟨out,encoded,_,(decoded _).trans (decodeLoop_spelled root (by rw [same.length]; exact total) ?_ left rfl le_rfl)⟩
  intro c mem
  obtain ⟨i,bits,inside,coded,_,more,leads,np,here,letter⟩ := tree.coded same mem
  rw [coded,getD_some]
  refine ⟨more (by omega),⟨i,np,leads,here,letter⟩,fun inner => fits ?_⟩
  rwa [← (char_eq_compound_iff c).mp inner]

lemma round_trip_only (small : bitCount heap input < 2^31) (trip : RoundTrips heap input) :
    (∃ a ∈ input, ∃ b ∈ input, a ≠ b) ∧ 255 ∉ input := by
  obtain ⟨file,written,fuel,read⟩ := trip
  have nonempty : input ≠ [] := by
    rintro rfl
    rw [encode_nil] at written
    cases written
  obtain ⟨out,nodes,nodes',root,s,encoded,tree,same,left,decoded⟩ := encode_spec heap nonempty small
  obtain rfl : out = file := some.inj (encoded.symm.trans written)
  rw [decoded] at read
  refine ⟨?_,decodeLoop_printed ?_ read⟩
  · -- with one letter every code is empty, and nothing is decoded
    by_contra one
    rw [← two_letters] at one
    have count := tree.count
    have total := tree.linked.root_eq
    rw [length_singleton] at count
    have none : input.flatMap (fun c => (code nodes (nodeIdx (letterCount input)) c).getD []) = [] := by
      rw [flatMap_eq_nil_iff]
      intro c mem
      obtain ⟨i,bits,inside,coded,top,_⟩ := tree.coded same mem
      rw [coded,getD_some,top (by omega)]
    rw [none] at left
    have ended : s.empty = true := by simp [BitStream.empty,left.remain]
    have nothing : decodeLoop nodes' fuel s = some [] := by
      cases fuel <;> rw [decodeLoop,if_pos ended]
    rw [nothing] at read
    exact nonempty (some.inj read).symm
  · intro np' mem
    obtain ⟨i,here⟩ := mem_iff_getElem?.mp mem
    have inside := (List.getElem?_eq_some_iff.mp here).1
    rw [same.length] at inside
    obtain ⟨np,there,letter,_,_⟩ := same.node i _ (getElem?_eq_getElem inside)
    obtain rfl : np' = np := some.inj (here.symm.trans there)
    rw [letter]
    refine (tree.letter _ (getElem_mem inside)).imp_right ?_
    rintro ⟨e,listed,key⟩
    obtain ⟨b,_,byte⟩ := (mem_letterCount input e.1).mp ⟨e.2,listed⟩
    exact ⟨b,key.trans byte.symm⟩

/-- Decoding gives the input back for the files with two different bytes and without the
byte `0xff`, and for no other. -/
theorem round_trip_iff (heap : Heap) (input : Bytes) (small : bitCount heap input < 2^31) :
    RoundTrips heap input ↔ (∃ a ∈ input, ∃ b ∈ input, a ≠ b) ∧ 255 ∉ input :=
  ⟨round_trip_only small,fun ⟨two,fits⟩ => round_trip_of small two fits⟩

theorem round_trip_iff_text : bitCount sortedHeap [65,66,65,67,128] < 2^31 ∧ RoundTrips sortedHeap [65,66,65,67,128] := by
  have small : bitCount sortedHeap [65,66,65,67,128] < 2^31 := by decide +kernel
  exact ⟨small,(round_trip_iff sortedHeap [65,66,65,67,128] small).mpr (by decide)⟩

/-- An empty file, a file with one letter, and a file with the letter that is `COMPOUND`. -/
theorem degenerate_files_lost : ¬ RoundTrips sortedHeap [] ∧ ¬ RoundTrips sortedHeap [65,65] ∧
    ¬ RoundTrips sortedHeap [65,255] := by
  refine ⟨fun trip => ?_,fun trip => ?_,fun trip => ?_⟩
  · obtain ⟨_,mem,_⟩ := (round_trip_only (by decide +kernel) trip).1
    cases mem
  · exact absurd (round_trip_only (by decide +kernel) trip).1 (by decide)
  · exact absurd (round_trip_only (by decide +kernel) trip).2 (by decide)

/-! ## The codes of `huffman.cpp` -/

/-- From a node down, left for 0 and right for 1. -/
def walk (nodes : List Node) : Int → List Bool → Option Int
  | i,[] => some i
  | i,bit::bits => (nodeAt nodes i).bind (fun np => walk nodes (if bit then np.right else np.left) bits)

def Node.isLeaf (np : Node) : Prop := np.left = -1 ∧ np.right = -1

/-- The nodes are one full binary tree: every node has no child or two, children and parents
point to each other, and from the root every node is reached. -/
structure FullTree (nodes : List Node) (root : Nat) : Prop where
  last : nodes.length = root+1
  full : ∀ (i : Nat) (np : Node), nodes[i]? = some np → np.isLeaf ∨ ∃ l r : Nat, np.left = l ∧ np.right = r ∧ l ≠ r
  parents : ∀ (i : Nat) (np : Node), nodes[i]? = some np → ∃ (p : Nat) (pp : Node), nodes[p]? = some pp ∧ np.parent = p
  inverse : ∀ (i p : Nat) (np pp : Node), nodes[i]? = some np → nodes[p]? = some pp → i ≠ p →
    (np.parent = p ↔ pp.left = i ∨ pp.right = i)
  top : ∀ (i : Nat) (np : Node), nodes[i]? = some np → (np.parent = i ↔ i = root)
  reached : ∀ i, i < nodes.length → ∃ bits, walk nodes root bits = some (i : Int)

/-- A letter is one leaf, which has its index. -/
structure LetterLeaf (nodes : List Node) (idx : SortedMap Int Nat) (letter count : Int) (i : Nat) : Prop where
  index : idx.get letter = some i
  leaf : ∃ np : Node, nodes[i]? = some np ∧ np.isLeaf ∧ np.letter = letter ∧ np.count = count
  only : ∀ (j : Nat) (np : Node), nodes[j]? = some np → np.isLeaf → np.letter = letter → j = i

/-- The bits lead from the root to the node, and before its end to nodes that are not leaves. -/
def LeadsTo (nodes : List Node) (root : Nat) (bits : List Bool) (i : Nat) : Prop :=
  walk nodes root bits = some (i : Int) ∧ ∀ n, n < bits.length →
    ∃ (j : Nat) (np : Node), walk nodes root (bits.take n) = some (j : Int) ∧ nodes[j]? = some np ∧ ¬ np.isLeaf

/-- The node is a child of a later one. -/
def ChildOf (nodes : List Node) (i p : Nat) : Prop := i < p ∧ ∃ np, nodes[i]? = some np ∧ np.parent = (p : Int)
def countOf (nodes : List Node) (i : Nat) : Int := ((nodes[i]?).map Node.count).getD 0

/-- The first nodes are the leaves, and the others have two children each. -/
structure Children (letters : List (Int × Int)) (nodes : List Node) : Prop where
  leaf : ∀ (i : Nat) (e : Int × Int), letters[i]? = some e → ∃ p, nodes[i]? = some ⟨e.1,e.2,p,-1,-1⟩
  inner : ∀ (i : Nat) (np : Node), nodes[i]? = some np → letters.length ≤ i →
    ∃ l r : Nat, np.left = l ∧ np.right = r ∧ l ≠ r ∧ ChildOf nodes l i ∧ ChildOf nodes r i ∧
      np.count = countOf nodes l+countOf nodes r

section
variable {letters : List (Int × Int)} {nodes : List Node} {heap : List Nat} {min1 min2 i p : Nat}

lemma countOf_join (inside : i < nodes.length) : countOf (join nodes min1 min2) i = countOf nodes i := by
  rw [countOf,countOf,join_old min1 min2 (getElem?_eq_getElem inside),getElem?_eq_getElem inside]
  simp only [map_some,getD_some]
  split <;> rfl

lemma ChildOf.lt (child : ChildOf nodes i p) : i < nodes.length := by
  obtain ⟨_,np,here,_⟩ := child
  exact (List.getElem?_eq_some_iff.mp here).1

lemma ChildOf.parent (child : ChildOf nodes i p) (here : nodes[i]? = some np) : np.parent = p := by
  obtain ⟨_,np',here',parent⟩ := child
  rw [here] at here'
  rw [some.inj here',parent]

lemma ChildOf.join (linked : Linked nodes (min1::min2::heap)) (child : ChildOf nodes i p) :
    ChildOf (join nodes min1 min2) i p := by
  obtain ⟨later,np,here,parent⟩ := child
  have other : ¬ (i = min1 ∨ i = min2) := by
    intro taken
    obtain ⟨np',here',self⟩ := linked.root i (by rcases taken with rfl | rfl <;> simp)
    rw [here] at here'
    cases here'
    omega
  exact ⟨later,np,by rw [join_old min1 min2 here,if_neg other],parent⟩

lemma Children.join (children : Children letters nodes) (linked : Linked nodes (min1::min2::heap)) :
    Children letters (join nodes min1 min2) := by
  have low1 := linked.lt (i := min1) (by simp)
  have low2 := linked.lt (i := min2) (by simp)
  constructor
  · intro i e here
    obtain ⟨p,there⟩ := children.leaf i e here
    have now := join_old min1 min2 there
    split at now
    · exact ⟨_,now⟩
    · exact ⟨_,now⟩
  · intro i np here late
    by_cases new : i = nodes.length
    · subst new
      rw [join_new low1 low2] at here
      cases here
      have child : ∀ j, j = min1 ∨ j = min2 → ChildOf (Huffman.join nodes min1 min2) j nodes.length := by
        intro j taken
        have inside : j < nodes.length := by rcases taken with rfl | rfl <;> assumption
        exact ⟨inside,_,join_old min1 min2 (getElem?_eq_getElem inside),by rw [if_pos taken]⟩
      refine ⟨min1,min2,rfl,rfl,?_,child min1 (.inl rfl),child min2 (.inr rfl),?_⟩
      · rintro rfl
        simpa using linked.nodup
      · rw [countOf_join low1,countOf_join low2]
        rfl
    · have inside := (List.getElem?_eq_some_iff.mp here).1
      rw [length_join] at inside
      have old := getElem?_eq_getElem (show i < nodes.length by omega)
      obtain ⟨l,r,left,right,other,childL,childR,count⟩ := children.inner i _ old late
      rw [join_old min1 min2 old] at here
      refine ⟨l,r,?_,?_,other,childL.join linked,childR.join linked,?_⟩
      · rw [← some.inj here,← left]
        split <;> rfl
      · rw [← some.inj here,← right]
        split <;> rfl
      · rw [countOf_join childL.lt,countOf_join childR.lt,← count,← some.inj here]
        split <;> rfl

lemma children_leaves (letters : SortedMap Int Int) : Children letters.entries (leaves letters) := by
  constructor
  · intro i e here
    exact ⟨i,by rw [getElem?_leaves,here]; rfl⟩
  · intro i np here late
    have inside := (List.getElem?_eq_some_iff.mp here).1
    simp only [leaves,length_map,length_zipIdx] at inside
    omega

lemma children_buildTree (heap : Heap) {letters : SortedMap Int Int} (some : letters.entries ≠ []) :
    ∃ nodes root, buildTree heap letters = (nodes,[root]) ∧ Linked nodes [root] ∧ Children letters.entries nodes := by
  apply buildTree_invariant heap some (P := fun nodes minHeap => Linked nodes minHeap ∧ Children letters.entries nodes)
  · exact ⟨(tree_leaves letters).linked.perm (heap.make_perm _ _),children_leaves letters⟩
  · rintro nodes minHeap more ⟨linked,children⟩
    obtain ⟨min1,min2,rest,perm,joined,left⟩ := exists_round heap nodes more
    have linked' := linked.perm perm
    rw [joined]
    exact ⟨linked'.join.perm left,children.join linked'⟩

lemma walk_append (nodes : List Node) (i : Int) (xs ys : List Bool) :
    walk nodes i (xs++ys) = (walk nodes i xs).bind (fun j => walk nodes j ys) := by
  induction xs generalizing i with
  | nil => rfl
  | cons x xs ih => simp [walk,ih,bind_assoc]

variable {root : Nat}

lemma LeadsTo.concat (leads : LeadsTo nodes root bits p) (there : nodes[p]? = some pp)
    (child : (if b then pp.right else pp.left) = (i : Int)) : LeadsTo nodes root (bits++[b]) i := by
  constructor
  · simp [walk_append,leads.1,walk,nodeAt_natCast,there,child]
  · intro n short
    rw [length_append,length_singleton] at short
    by_cases last : n = bits.length
    · subst last
      refine ⟨p,pp,by rw [take_left]; exact leads.1,there,?_⟩
      rintro ⟨left,right⟩
      rw [left,right,ite_self] at child
      omega
    · rw [take_append_of_le_length (by omega)]
      exact leads.2 n (by omega)

lemma Children.early (children : Children letters nodes) (here : nodes[i]? = some np) (leaf : np.isLeaf) :
    letters[i]? = some (np.letter,np.count) := by
  by_cases late : letters.length ≤ i
  · obtain ⟨l,r,left,_⟩ := children.inner i np here late
    rw [leaf.1] at left
    omega
  · have entry := getElem?_eq_getElem (show i < letters.length by omega)
    obtain ⟨p,there⟩ := children.leaf i _ entry
    rw [here] at there
    rw [entry,some.inj there]

lemma FullTree.of_children (linked : Linked nodes [root]) (children : Children letters nodes)
    (reached : ∀ i, i < nodes.length → ∃ bits, walk nodes root bits = some (i : Int)) : FullTree nodes root := by
  refine ⟨linked.root_eq,?_,?_,?_,?_,reached⟩
  · intro i np here
    by_cases late : letters.length ≤ i
    · obtain ⟨l,r,left,right,other,_⟩ := children.inner i np here late
      exact .inr ⟨l,r,left,right,other⟩
    · obtain ⟨p,there⟩ := children.leaf i _ (getElem?_eq_getElem (show i < letters.length by omega))
      rw [here] at there
      rw [some.inj there]
      exact .inl ⟨rfl,rfl⟩
  · intro i np here
    by_cases top : i ∈ [root]
    · obtain ⟨np',here',self⟩ := linked.root i top
      rw [here] at here'
      exact ⟨i,np,here,by rw [some.inj here']; exact self⟩
    · obtain ⟨p,pp,parent,_,there,_⟩ := linked.child i np here top
      exact ⟨p,pp,there,parent⟩
  · intro i p np pp here there apart
    constructor
    · intro parent
      by_cases top : i ∈ [root]
      · have self := linked.self top here
        omega
      · obtain ⟨p',pp',parent',_,there',_,side⟩ := linked.child i np here top
        obtain rfl : p' = p := by omega
        rw [there] at there'
        rw [some.inj there']
        tauto
    · intro child
      by_cases late : letters.length ≤ p
      · obtain ⟨l,r,left,right,_,childL,childR,_⟩ := children.inner p pp there late
        rcases child with side | side
        · obtain rfl : l = i := by omega
          exact childL.parent here
        · obtain rfl : r = i := by omega
          exact childR.parent here
      · obtain ⟨_,leaf⟩ := children.leaf p _ (getElem?_eq_getElem (show p < letters.length by omega))
        rw [there] at leaf
        rw [some.inj leaf] at child
        simp only at child
        omega
  · intro i np here
    constructor
    · intro self
      by_contra below
      obtain ⟨p,_,parent,later,_⟩ := linked.child i np here (by simpa using below)
      omega
    · rintro rfl
      exact linked.self (by simp) here

end

/-- After `BuildTree` the nodes are one full tree, whose leaves are the letters, and the code of a
letter leads to its leaf and to no leaf before. -/
theorem buildTree_prefix_code (heap : Heap) {letters : SortedMap Int Int} (two : 2 ≤ letters.entries.length) :
    ∃ nodes root, buildTree heap letters = (nodes,[root]) ∧ FullTree nodes root ∧
      (∀ (i : Nat) (np : Node), nodes[i]? = some np → np.isLeaf → (np.letter,np.count) ∈ letters.entries) ∧
      ∀ c count, (char c,count) ∈ letters.entries → ∃ i bits, LetterLeaf nodes (nodeIdx letters) (char c) count i ∧
        code nodes (nodeIdx letters) c = some bits ∧ LeadsTo nodes root bits i := by
  obtain ⟨nodes,root,built,linked,children⟩ := children_buildTree heap (ne_nil_of_length_pos (show 0 < letters.entries.length by omega))
  have last := linked.root_eq
  have codes : ∀ i, i < nodes.length → ∃ bits, climb nodes nodes.length i = some bits ∧ (i ≠ root → bits ≠ []) ∧
      LeadsTo nodes root bits.reverse i := fun i inside =>
    climb_invariant linked ⟨rfl,by simp⟩ (fun leads there _ child => leads.concat there child) nodes.length inside (by omega)
  refine ⟨nodes,root,built,.of_children linked children ?_,?_,?_⟩
  · intro i inside
    obtain ⟨bits,_,_,leads⟩ := codes i inside
    exact ⟨_,leads.1⟩
  · exact fun i np here leaf => mem_of_getElem? (children.early here leaf)
  · intro c count mem
    obtain ⟨i,entry⟩ := mem_iff_getElem?.mp mem
    obtain ⟨p,here⟩ := children.leaf i _ entry
    obtain ⟨bits,climbed,_,leads⟩ := codes i (List.getElem?_eq_some_iff.mp here).1
    have index := nodeIdx_get entry
    refine ⟨i,bits.reverse,⟨index,⟨_,here,⟨rfl,rfl⟩,rfl,rfl⟩,?_⟩,?_,leads⟩
    · intro j np there leaf same
      have other := nodeIdx_get (children.early there leaf)
      rw [same,index] at other
      exact (some.inj other).symm
    · simp only [code,index,getD_some,climbed,map_some]

theorem buildTree_prefix_code_text : 2 ≤ (letterCount [65,66,65,255]).entries.length ∧
    ∃ nodes root, buildTree sortedHeap (letterCount [65,66,65,255]) = (nodes,[root]) ∧ FullTree nodes root := by
  have two : 2 ≤ (letterCount [65,66,65,255]).entries.length := by decide
  obtain ⟨nodes,root,built,tree,_⟩ := buildTree_prefix_code sortedHeap two
  exact ⟨two,nodes,root,built,tree⟩

end CodeExercise.Huffman
