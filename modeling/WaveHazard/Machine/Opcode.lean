/-! # Opcodes

Every opcode has a mnemonic, an encoding and an execution class; `Opcode.facts` is the table, and
everything else about opcodes is read from it.
-/

namespace WaveHazard.Machine

/-- The encoding family of an instruction. -/
inductive Encoding where
  | pseudo
  | pseudoBarrier
  | sop1
  | sop2
  | sopk
  | sopc
  | sopp
  | smem
  | ds
  | ldsdir
  | mubuf
  | mtbuf
  | mimg
  | exp
  | flat
  | global
  | scratch
  | vop1
  | vop2
  | vop3
  | vopc
  | vinterpInreg
deriving DecidableEq, Inhabited

namespace Encoding

/-- The name of the encoding. -/
def name : Encoding → String
  | pseudo => "Pseudo"
  | pseudoBarrier => "PseudoBarrier"
  | sop1 => "Sop1"
  | sop2 => "Sop2"
  | sopk => "Sopk"
  | sopc => "Sopc"
  | sopp => "Sopp"
  | smem => "Smem"
  | ds => "Ds"
  | ldsdir => "Ldsdir"
  | mubuf => "Mubuf"
  | mtbuf => "Mtbuf"
  | mimg => "Mimg"
  | exp => "Exp"
  | flat => "Flat"
  | global => "Global"
  | scratch => "Scratch"
  | vop1 => "Vop1"
  | vop2 => "Vop2"
  | vop3 => "Vop3"
  | vopc => "Vopc"
  | vinterpInreg => "VinterpInreg"

/-- Scalar arithmetic and program control. -/
def isScalar : Encoding → Bool
  | sop1 | sop2 | sopk | sopc | sopp => true
  | _ => false

/-- Vector arithmetic. -/
def isVector : Encoding → Bool
  | vop1 | vop2 | vop3 | vopc | vinterpInreg => true
  | _ => false

/-- Buffer and image memory. -/
def isVectorMemory : Encoding → Bool
  | mubuf | mtbuf | mimg => true
  | _ => false

/-- Flat, global and scratch memory. -/
def isFlatLike : Encoding → Bool
  | flat | global | scratch => true
  | _ => false

end Encoding

/-- The execution unit and latency class of an opcode. -/
inductive ExecutionClass where
  | pseudo
  | salu
  | branch
  | waitcnt
  | valu32
  | valuDouble
  | trans
  | wmma
  | smem
  | ds
  | vmem
  | exports
deriving DecidableEq, Inhabited

/-- The name of the execution class. -/
def ExecutionClass.name : ExecutionClass → String
  | pseudo => "Pseudo"
  | salu => "Salu"
  | branch => "Branch"
  | waitcnt => "Waitcnt"
  | valu32 => "Valu32"
  | valuDouble => "ValuDouble"
  | trans => "Trans"
  | wmma => "Wmma"
  | smem => "Smem"
  | ds => "Ds"
  | vmem => "Vmem"
  | exports => "Export"

/-- The opcodes of the machine. -/
inductive Opcode where
  | pBarrier
  | sMovB32
  | sMovB64
  | sSendmsgRtnB32
  | sSendmsgRtnB64
  | sSetpcB64
  | sAndSaveexecB64
  | sAddU32
  | sAndB32
  | sLshlB32
  | sMulI32
  | sMovkI32
  | sWaitcntVscnt
  | sWaitcntVmcnt
  | sWaitcntExpcnt
  | sWaitcntLgkmcnt
  | sCmpEqU32
  | sWaitcnt
  | sWaitLoadcnt
  | sWaitStorecnt
  | sWaitExpcnt
  | sWaitDscnt
  | sWaitSamplecnt
  | sWaitBvhcnt
  | sWaitKmcnt
  | sWaitLoadcntDscnt
  | sWaitStorecntDscnt
  | sDelayAlu
  | sSendmsg
  | sSendmsghalt
  | sNop
  | sEndpgm
  | sBranch
  | sCbranchScc0
  | sCbranchExecz
  | sLoadDword
  | sLoadDwordx2
  | sLoadDwordx4
  | sBufferLoadDword
  | sBufferStoreDword
  | sDcacheWb
  | dsReadB32
  | dsReadB64
  | dsWriteB32
  | dsAddU32
  | dsOrderedCount
  | ldsParamLoad
  | ldsDirectLoad
  | bufferLoadDword
  | bufferLoadDwordx4
  | bufferStoreDword
  | bufferAtomicAdd
  | tbufferLoadFormatX
  | tbufferStoreFormatX
  | imageLoad
  | imageStore
  | imageSample
  | imageGather4
  | imageBvh64IntersectRay
  | flatLoadDword
  | flatStoreDword
  | globalLoadDword
  | globalLoadDwordx2
  | globalStoreDword
  | globalAtomicAdd
  | scratchLoadDword
  | scratchStoreDword
  | exp
  | vMovB32
  | vCvtF32U32
  | vRcpF32
  | vExpF32
  | vSqrtF32
  | vAddF32
  | vMulF32
  | vAddU32
  | vFmacF32
  | vFmaF32
  | vMadU32U24
  | vAddF64
  | vWmmaF32F16
  | vCmpEqU32
  | vInterpP10F32Inreg
deriving DecidableEq, Inhabited

/-- What is known about an opcode. -/
structure Opcode.Facts where
  /-- The name in assembly text. -/
  mnemonic : String
  /-- The name in structured data. -/
  label : String
  encoding : Encoding
  execution : ExecutionClass

namespace Opcode

/-- The table of opcodes. -/
def facts : Opcode → Facts
  | pBarrier => ⟨"p_barrier", "PBarrier", .pseudoBarrier, .pseudo⟩
  | sMovB32 => ⟨"s_mov_b32", "SMovB32", .sop1, .salu⟩
  | sMovB64 => ⟨"s_mov_b64", "SMovB64", .sop1, .salu⟩
  | sSendmsgRtnB32 => ⟨"s_sendmsg_rtn_b32", "SSendmsgRtnB32", .sop1, .salu⟩
  | sSendmsgRtnB64 => ⟨"s_sendmsg_rtn_b64", "SSendmsgRtnB64", .sop1, .salu⟩
  | sSetpcB64 => ⟨"s_setpc_b64", "SSetpcB64", .sop1, .branch⟩
  | sAndSaveexecB64 => ⟨"s_and_saveexec_b64", "SAndSaveexecB64", .sop1, .salu⟩
  | sAddU32 => ⟨"s_add_u32", "SAddU32", .sop2, .salu⟩
  | sAndB32 => ⟨"s_and_b32", "SAndB32", .sop2, .salu⟩
  | sLshlB32 => ⟨"s_lshl_b32", "SLshlB32", .sop2, .salu⟩
  | sMulI32 => ⟨"s_mul_i32", "SMulI32", .sop2, .salu⟩
  | sMovkI32 => ⟨"s_movk_i32", "SMovkI32", .sopk, .salu⟩
  | sWaitcntVscnt => ⟨"s_waitcnt_vscnt", "SWaitcntVscnt", .sopk, .waitcnt⟩
  | sWaitcntVmcnt => ⟨"s_waitcnt_vmcnt", "SWaitcntVmcnt", .sopk, .waitcnt⟩
  | sWaitcntExpcnt => ⟨"s_waitcnt_expcnt", "SWaitcntExpcnt", .sopk, .waitcnt⟩
  | sWaitcntLgkmcnt => ⟨"s_waitcnt_lgkmcnt", "SWaitcntLgkmcnt", .sopk, .waitcnt⟩
  | sCmpEqU32 => ⟨"s_cmp_eq_u32", "SCmpEqU32", .sopc, .salu⟩
  | sWaitcnt => ⟨"s_waitcnt", "SWaitcnt", .sopp, .waitcnt⟩
  | sWaitLoadcnt => ⟨"s_wait_loadcnt", "SWaitLoadcnt", .sopp, .waitcnt⟩
  | sWaitStorecnt => ⟨"s_wait_storecnt", "SWaitStorecnt", .sopp, .waitcnt⟩
  | sWaitExpcnt => ⟨"s_wait_expcnt", "SWaitExpcnt", .sopp, .waitcnt⟩
  | sWaitDscnt => ⟨"s_wait_dscnt", "SWaitDscnt", .sopp, .waitcnt⟩
  | sWaitSamplecnt => ⟨"s_wait_samplecnt", "SWaitSamplecnt", .sopp, .waitcnt⟩
  | sWaitBvhcnt => ⟨"s_wait_bvhcnt", "SWaitBvhcnt", .sopp, .waitcnt⟩
  | sWaitKmcnt => ⟨"s_wait_kmcnt", "SWaitKmcnt", .sopp, .waitcnt⟩
  | sWaitLoadcntDscnt => ⟨"s_wait_loadcnt_dscnt", "SWaitLoadcntDscnt", .sopp, .waitcnt⟩
  | sWaitStorecntDscnt => ⟨"s_wait_storecnt_dscnt", "SWaitStorecntDscnt", .sopp, .waitcnt⟩
  | sDelayAlu => ⟨"s_delay_alu", "SDelayAlu", .sopp, .waitcnt⟩
  | sSendmsg => ⟨"s_sendmsg", "SSendmsg", .sopp, .salu⟩
  | sSendmsghalt => ⟨"s_sendmsghalt", "SSendmsghalt", .sopp, .salu⟩
  | sNop => ⟨"s_nop", "SNop", .sopp, .salu⟩
  | sEndpgm => ⟨"s_endpgm", "SEndpgm", .sopp, .branch⟩
  | sBranch => ⟨"s_branch", "SBranch", .sopp, .branch⟩
  | sCbranchScc0 => ⟨"s_cbranch_scc0", "SCbranchScc0", .sopp, .branch⟩
  | sCbranchExecz => ⟨"s_cbranch_execz", "SCbranchExecz", .sopp, .branch⟩
  | sLoadDword => ⟨"s_load_dword", "SLoadDword", .smem, .smem⟩
  | sLoadDwordx2 => ⟨"s_load_dwordx2", "SLoadDwordx2", .smem, .smem⟩
  | sLoadDwordx4 => ⟨"s_load_dwordx4", "SLoadDwordx4", .smem, .smem⟩
  | sBufferLoadDword => ⟨"s_buffer_load_dword", "SBufferLoadDword", .smem, .smem⟩
  | sBufferStoreDword => ⟨"s_buffer_store_dword", "SBufferStoreDword", .smem, .smem⟩
  | sDcacheWb => ⟨"s_dcache_wb", "SDcacheWb", .smem, .smem⟩
  | dsReadB32 => ⟨"ds_read_b32", "DsReadB32", .ds, .ds⟩
  | dsReadB64 => ⟨"ds_read_b64", "DsReadB64", .ds, .ds⟩
  | dsWriteB32 => ⟨"ds_write_b32", "DsWriteB32", .ds, .ds⟩
  | dsAddU32 => ⟨"ds_add_u32", "DsAddU32", .ds, .ds⟩
  | dsOrderedCount => ⟨"ds_ordered_count", "DsOrderedCount", .ds, .ds⟩
  | ldsParamLoad => ⟨"lds_param_load", "LdsParamLoad", .ldsdir, .ds⟩
  | ldsDirectLoad => ⟨"lds_direct_load", "LdsDirectLoad", .ldsdir, .ds⟩
  | bufferLoadDword => ⟨"buffer_load_dword", "BufferLoadDword", .mubuf, .vmem⟩
  | bufferLoadDwordx4 => ⟨"buffer_load_dwordx4", "BufferLoadDwordx4", .mubuf, .vmem⟩
  | bufferStoreDword => ⟨"buffer_store_dword", "BufferStoreDword", .mubuf, .vmem⟩
  | bufferAtomicAdd => ⟨"buffer_atomic_add", "BufferAtomicAdd", .mubuf, .vmem⟩
  | tbufferLoadFormatX => ⟨"tbuffer_load_format_x", "TbufferLoadFormatX", .mtbuf, .vmem⟩
  | tbufferStoreFormatX => ⟨"tbuffer_store_format_x", "TbufferStoreFormatX", .mtbuf, .vmem⟩
  | imageLoad => ⟨"image_load", "ImageLoad", .mimg, .vmem⟩
  | imageStore => ⟨"image_store", "ImageStore", .mimg, .vmem⟩
  | imageSample => ⟨"image_sample", "ImageSample", .mimg, .vmem⟩
  | imageGather4 => ⟨"image_gather4", "ImageGather4", .mimg, .vmem⟩
  | imageBvh64IntersectRay => ⟨"image_bvh64_intersect_ray", "ImageBvh64IntersectRay", .mimg, .vmem⟩
  | flatLoadDword => ⟨"flat_load_dword", "FlatLoadDword", .flat, .vmem⟩
  | flatStoreDword => ⟨"flat_store_dword", "FlatStoreDword", .flat, .vmem⟩
  | globalLoadDword => ⟨"global_load_dword", "GlobalLoadDword", .global, .vmem⟩
  | globalLoadDwordx2 => ⟨"global_load_dwordx2", "GlobalLoadDwordx2", .global, .vmem⟩
  | globalStoreDword => ⟨"global_store_dword", "GlobalStoreDword", .global, .vmem⟩
  | globalAtomicAdd => ⟨"global_atomic_add", "GlobalAtomicAdd", .global, .vmem⟩
  | scratchLoadDword => ⟨"scratch_load_dword", "ScratchLoadDword", .scratch, .vmem⟩
  | scratchStoreDword => ⟨"scratch_store_dword", "ScratchStoreDword", .scratch, .vmem⟩
  | exp => ⟨"exp", "Exp", .exp, .exports⟩
  | vMovB32 => ⟨"v_mov_b32", "VMovB32", .vop1, .valu32⟩
  | vCvtF32U32 => ⟨"v_cvt_f32_u32", "VCvtF32U32", .vop1, .valu32⟩
  | vRcpF32 => ⟨"v_rcp_f32", "VRcpF32", .vop1, .trans⟩
  | vExpF32 => ⟨"v_exp_f32", "VExpF32", .vop1, .trans⟩
  | vSqrtF32 => ⟨"v_sqrt_f32", "VSqrtF32", .vop1, .trans⟩
  | vAddF32 => ⟨"v_add_f32", "VAddF32", .vop2, .valu32⟩
  | vMulF32 => ⟨"v_mul_f32", "VMulF32", .vop2, .valu32⟩
  | vAddU32 => ⟨"v_add_u32", "VAddU32", .vop2, .valu32⟩
  | vFmacF32 => ⟨"v_fmac_f32", "VFmacF32", .vop2, .valu32⟩
  | vFmaF32 => ⟨"v_fma_f32", "VFmaF32", .vop3, .valu32⟩
  | vMadU32U24 => ⟨"v_mad_u32_u24", "VMadU32U24", .vop3, .valu32⟩
  | vAddF64 => ⟨"v_add_f64", "VAddF64", .vop3, .valuDouble⟩
  | vWmmaF32F16 => ⟨"v_wmma_f32_16x16x16_f16", "VWmmaF32F16", .vop3, .wmma⟩
  | vCmpEqU32 => ⟨"v_cmp_eq_u32", "VCmpEqU32", .vopc, .valu32⟩
  | vInterpP10F32Inreg => ⟨"v_interp_p10_f32_inreg", "VInterpP10F32Inreg", .vinterpInreg, .valu32⟩

/-- All opcodes, in the order of the table. -/
def all : List Opcode :=
  [.pBarrier, .sMovB32, .sMovB64, .sSendmsgRtnB32, .sSendmsgRtnB64, .sSetpcB64, .sAndSaveexecB64,
   .sAddU32, .sAndB32, .sLshlB32, .sMulI32, .sMovkI32, .sWaitcntVscnt, .sWaitcntVmcnt,
   .sWaitcntExpcnt, .sWaitcntLgkmcnt, .sCmpEqU32, .sWaitcnt, .sWaitLoadcnt, .sWaitStorecnt,
   .sWaitExpcnt, .sWaitDscnt, .sWaitSamplecnt, .sWaitBvhcnt, .sWaitKmcnt, .sWaitLoadcntDscnt,
   .sWaitStorecntDscnt, .sDelayAlu, .sSendmsg, .sSendmsghalt, .sNop, .sEndpgm, .sBranch,
   .sCbranchScc0, .sCbranchExecz, .sLoadDword, .sLoadDwordx2, .sLoadDwordx4, .sBufferLoadDword,
   .sBufferStoreDword, .sDcacheWb, .dsReadB32, .dsReadB64, .dsWriteB32, .dsAddU32,
   .dsOrderedCount, .ldsParamLoad, .ldsDirectLoad, .bufferLoadDword, .bufferLoadDwordx4,
   .bufferStoreDword, .bufferAtomicAdd, .tbufferLoadFormatX, .tbufferStoreFormatX, .imageLoad,
   .imageStore, .imageSample, .imageGather4, .imageBvh64IntersectRay, .flatLoadDword,
   .flatStoreDword, .globalLoadDword, .globalLoadDwordx2, .globalStoreDword, .globalAtomicAdd,
   .scratchLoadDword, .scratchStoreDword, .exp, .vMovB32, .vCvtF32U32, .vRcpF32, .vExpF32,
   .vSqrtF32, .vAddF32, .vMulF32, .vAddU32, .vFmacF32, .vFmaF32, .vMadU32U24, .vAddF64,
   .vWmmaF32F16, .vCmpEqU32, .vInterpP10F32Inreg]

/-- The name in assembly text. -/
def mnemonic (opcode : Opcode) : String := opcode.facts.mnemonic

/-- The name in structured data. -/
def label (opcode : Opcode) : String := opcode.facts.label

/-- The encoding family. -/
def encoding (opcode : Opcode) : Encoding := opcode.facts.encoding

/-- The execution class. -/
def execution (opcode : Opcode) : ExecutionClass := opcode.facts.execution

/-- The opcode with the given mnemonic. -/
def ofMnemonic? (mnemonic : String) : Option Opcode :=
  all.find? fun opcode => opcode.mnemonic == mnemonic

theorem mem_all (opcode : Opcode) : opcode ∈ all := by
  cases opcode <;> decide

end Opcode

end WaveHazard.Machine
