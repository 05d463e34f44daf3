import Crucible.TensorGraph

/-! # Kernel identifiers

The kernel taxonomy, in the order of its codes, the name of each identifier, and the kind of
graph node that an op with that kernel becomes.
-/
namespace Crucible

inductive CKernelId where
  | opaqueKernel | gemmMm | gemmBmm | gemmMatmul | gemmAddmm | gemmLinear | gemmAddbmm
  | gemmBaddbmm | gemmEinsum | conv1d | conv2d | conv3d | convTranspose1d | convTranspose2d
  | convTranspose3d | sdpa | mha | rope | positionBias | layerNorm | batchNormTrain
  | batchNormEval | groupNorm | instanceNorm | rmsNorm | actRelu | actGelu | actSilu
  | actSigmoid | actTanh | actHardswish | actLeakyRelu | actElu | actSoftmax | actLogSoftmax
  | actDropout | actClamp | actMish | ewiseAdd | ewiseMul | ewiseSub | ewiseDiv | ewisePow
  | ewiseMax | ewiseMin | ewiseMod | ewiseWhere | ewiseExp | ewiseLog | ewiseSqrt | ewiseRsqrt
  | ewiseAbs | ewiseNeg | ewiseSign | ewiseFloor | ewiseCast | ewiseFill | reduceSum
  | reduceMean | reduceMax | reduceMin | reduceArgmax | reduceArgmin | reduceCumsum | reduceTopk
  | poolMax1d | poolMax2d | poolMax3d | poolAvg1d | poolAvg2d | poolAvg3d | poolAdaptiveMax
  | poolAdaptiveAvg | view | reshape | permute | transpose | contiguous | expand | squeeze
  | slice | indexSelect | index | scatter | maskedFill | pad | cat | stack | unfold | embedding
  | embeddingBag | copy | clone | interpolate | gridSample | im2col | fusedAttention
  | fusedLinearAct | fusedNormLinear | fusedSoftmaxDrop | linalgSvd | linalgCholesky | linalgQr
  | linalgSolve | linalgEigh | linalgNorm | linalgCross | cdist | fft | assocScan
  | selectiveScan | ssdChunk | wkvRecurrence | retention | mlstmRecurrence | dequantGemm
  | moeRouteGemm | pagedAttention | fusedCrossEntropy | linearAttnCausal | raggedAttn
  | gaussianRasterize | hashGridEncode | volumeRender | shEval | fftConv | monarchMatmul
  | spmmGnn | sddmmGnn | sinkhorn | commAllreduce | commAllgather | commReduceScatter
  | commBroadcast | commAllToAll | commSend | commRecv | commReduce | commGather | commScatter
  | ioLoad | ioPrefetch | ioCheckpointSave | ioCheckpointLoad | rngUniform | rngNormal
  | commBarrier
deriving DecidableEq

def ckernelName : CKernelId → String
  | .opaqueKernel => "OPAQUE"
  | .gemmMm => "GEMM_MM"
  | .gemmBmm => "GEMM_BMM"
  | .gemmMatmul => "GEMM_MATMUL"
  | .gemmAddmm => "GEMM_ADDMM"
  | .gemmLinear => "GEMM_LINEAR"
  | .gemmAddbmm => "GEMM_ADDBMM"
  | .gemmBaddbmm => "GEMM_BADDBMM"
  | .gemmEinsum => "GEMM_EINSUM"
  | .conv1d => "CONV1D"
  | .conv2d => "CONV2D"
  | .conv3d => "CONV3D"
  | .convTranspose1d => "CONV_TRANSPOSE1D"
  | .convTranspose2d => "CONV_TRANSPOSE2D"
  | .convTranspose3d => "CONV_TRANSPOSE3D"
  | .sdpa => "SDPA"
  | .mha => "MHA"
  | .rope => "ROPE"
  | .positionBias => "POSITION_BIAS"
  | .layerNorm => "LAYER_NORM"
  | .batchNormTrain => "BATCH_NORM_TRAIN"
  | .batchNormEval => "BATCH_NORM_EVAL"
  | .groupNorm => "GROUP_NORM"
  | .instanceNorm => "INSTANCE_NORM"
  | .rmsNorm => "RMS_NORM"
  | .actRelu => "ACT_RELU"
  | .actGelu => "ACT_GELU"
  | .actSilu => "ACT_SILU"
  | .actSigmoid => "ACT_SIGMOID"
  | .actTanh => "ACT_TANH"
  | .actHardswish => "ACT_HARDSWISH"
  | .actLeakyRelu => "ACT_LEAKY_RELU"
  | .actElu => "ACT_ELU"
  | .actSoftmax => "ACT_SOFTMAX"
  | .actLogSoftmax => "ACT_LOG_SOFTMAX"
  | .actDropout => "ACT_DROPOUT"
  | .actClamp => "ACT_CLAMP"
  | .actMish => "ACT_MISH"
  | .ewiseAdd => "EWISE_ADD"
  | .ewiseMul => "EWISE_MUL"
  | .ewiseSub => "EWISE_SUB"
  | .ewiseDiv => "EWISE_DIV"
  | .ewisePow => "EWISE_POW"
  | .ewiseMax => "EWISE_MAX"
  | .ewiseMin => "EWISE_MIN"
  | .ewiseMod => "EWISE_MOD"
  | .ewiseWhere => "EWISE_WHERE"
  | .ewiseExp => "EWISE_EXP"
  | .ewiseLog => "EWISE_LOG"
  | .ewiseSqrt => "EWISE_SQRT"
  | .ewiseRsqrt => "EWISE_RSQRT"
  | .ewiseAbs => "EWISE_ABS"
  | .ewiseNeg => "EWISE_NEG"
  | .ewiseSign => "EWISE_SIGN"
  | .ewiseFloor => "EWISE_FLOOR"
  | .ewiseCast => "EWISE_CAST"
  | .ewiseFill => "EWISE_FILL"
  | .reduceSum => "REDUCE_SUM"
  | .reduceMean => "REDUCE_MEAN"
  | .reduceMax => "REDUCE_MAX"
  | .reduceMin => "REDUCE_MIN"
  | .reduceArgmax => "REDUCE_ARGMAX"
  | .reduceArgmin => "REDUCE_ARGMIN"
  | .reduceCumsum => "REDUCE_CUMSUM"
  | .reduceTopk => "REDUCE_TOPK"
  | .poolMax1d => "POOL_MAX1D"
  | .poolMax2d => "POOL_MAX2D"
  | .poolMax3d => "POOL_MAX3D"
  | .poolAvg1d => "POOL_AVG1D"
  | .poolAvg2d => "POOL_AVG2D"
  | .poolAvg3d => "POOL_AVG3D"
  | .poolAdaptiveMax => "POOL_ADAPTIVE_MAX"
  | .poolAdaptiveAvg => "POOL_ADAPTIVE_AVG"
  | .view => "VIEW"
  | .reshape => "RESHAPE"
  | .permute => "PERMUTE"
  | .transpose => "TRANSPOSE"
  | .contiguous => "CONTIGUOUS"
  | .expand => "EXPAND"
  | .squeeze => "SQUEEZE"
  | .slice => "SLICE"
  | .indexSelect => "INDEX_SELECT"
  | .index => "INDEX"
  | .scatter => "SCATTER"
  | .maskedFill => "MASKED_FILL"
  | .pad => "PAD"
  | .cat => "CAT"
  | .stack => "STACK"
  | .unfold => "UNFOLD"
  | .embedding => "EMBEDDING"
  | .embeddingBag => "EMBEDDING_BAG"
  | .copy => "COPY_"
  | .clone => "CLONE"
  | .interpolate => "INTERPOLATE"
  | .gridSample => "GRID_SAMPLE"
  | .im2col => "IM2COL"
  | .fusedAttention => "FUSED_ATTENTION"
  | .fusedLinearAct => "FUSED_LINEAR_ACT"
  | .fusedNormLinear => "FUSED_NORM_LINEAR"
  | .fusedSoftmaxDrop => "FUSED_SOFTMAX_DROP"
  | .linalgSvd => "LINALG_SVD"
  | .linalgCholesky => "LINALG_CHOLESKY"
  | .linalgQr => "LINALG_QR"
  | .linalgSolve => "LINALG_SOLVE"
  | .linalgEigh => "LINALG_EIGH"
  | .linalgNorm => "LINALG_NORM"
  | .linalgCross => "LINALG_CROSS"
  | .cdist => "CDIST"
  | .fft => "FFT"
  | .assocScan => "ASSOC_SCAN"
  | .selectiveScan => "SELECTIVE_SCAN"
  | .ssdChunk => "SSD_CHUNK"
  | .wkvRecurrence => "WKV_RECURRENCE"
  | .retention => "RETENTION"
  | .mlstmRecurrence => "MLSTM_RECURRENCE"
  | .dequantGemm => "DEQUANT_GEMM"
  | .moeRouteGemm => "MOE_ROUTE_GEMM"
  | .pagedAttention => "PAGED_ATTENTION"
  | .fusedCrossEntropy => "FUSED_CROSS_ENTROPY"
  | .linearAttnCausal => "LINEAR_ATTN_CAUSAL"
  | .raggedAttn => "RAGGED_ATTN"
  | .gaussianRasterize => "GAUSSIAN_RASTERIZE"
  | .hashGridEncode => "HASH_GRID_ENCODE"
  | .volumeRender => "VOLUME_RENDER"
  | .shEval => "SH_EVAL"
  | .fftConv => "FFT_CONV"
  | .monarchMatmul => "MONARCH_MATMUL"
  | .spmmGnn => "SPMM_GNN"
  | .sddmmGnn => "SDDMM_GNN"
  | .sinkhorn => "SINKHORN"
  | .commAllreduce => "COMM_ALLREDUCE"
  | .commAllgather => "COMM_ALLGATHER"
  | .commReduceScatter => "COMM_REDUCE_SCATTER"
  | .commBroadcast => "COMM_BROADCAST"
  | .commAllToAll => "COMM_ALL_TO_ALL"
  | .commSend => "COMM_SEND"
  | .commRecv => "COMM_RECV"
  | .commReduce => "COMM_REDUCE"
  | .commGather => "COMM_GATHER"
  | .commScatter => "COMM_SCATTER"
  | .ioLoad => "IO_LOAD"
  | .ioPrefetch => "IO_PREFETCH"
  | .ioCheckpointSave => "IO_CHECKPOINT_SAVE"
  | .ioCheckpointLoad => "IO_CHECKPOINT_LOAD"
  | .rngUniform => "RNG_UNIFORM"
  | .rngNormal => "RNG_NORMAL"
  | .commBarrier => "COMM_BARRIER"

/-- `classify_node_kind`.  The specific overrides come before the ranges that hold them. -/
def classifyNodeKind (kid : CKernelId) : NodeKind :=
  if kid = .reduceCumsum ∨ kid = .assocScan then .scan
  else if kid = .copy then .mutation
  else if CKernelId.actRelu.ctorIdx ≤ kid.ctorIdx ∧ kid.ctorIdx ≤ CKernelId.ewiseFill.ctorIdx then
    .pointwise
  else if CKernelId.reduceSum.ctorIdx ≤ kid.ctorIdx ∧
      kid.ctorIdx ≤ CKernelId.reduceTopk.ctorIdx then
    .reduction
  else if CKernelId.view.ctorIdx ≤ kid.ctorIdx ∧ kid.ctorIdx ≤ CKernelId.unfold.ctorIdx then .nop
  else .external

/-- The identifiers in the order of their codes. -/
def CKernelId.all : List CKernelId := (List.range 147).map CKernelId.ofNat

theorem CKernelId.mem_all (kid : CKernelId) : kid ∈ CKernelId.all := by
  refine List.mem_map.mpr ⟨kid.ctorIdx, List.mem_range.mpr ?_, CKernelId.ofNat_ctorIdx kid⟩
  cases kid <;> decide

/-- **Different kernels have different names.** -/
theorem ckernelName_injective {kid kid' : CKernelId} (h : ckernelName kid = ckernelName kid') :
    kid = kid' := by
  have hnod : (CKernelId.all.map ckernelName).Nodup := by decide +kernel
  exact List.inj_on_of_nodup_map hnod kid.mem_all kid'.mem_all h

end Crucible
