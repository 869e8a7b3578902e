import PSVFSS.Lib.Bytes
import PSVFSS.Lib.TwoParty
import PSVFSS.Lib.Transcript
import PSVFSS.Lib.CipherMode
import PSVFSS.Lib.PathTree
import PSVFSS.Lib.Loop
import PSVFSS.Lib.Runs
import PSVFSS.Lib.Network
import PSVFSS.Lib.Rearrange
import PSVFSS.Lib.ByteLoop
import PSVFSS.Lib.Framing
import PSVFSS.Lib.Tally
import PSVFSS.Lib.Restart
import PSVFSS.Lib.BlockHash
import PSVFSS.Field61
import PSVFSS.Vdpf.FullDomain
import PSVFSS.Vdpf.Binding
import PSVFSS.Vdpf.Plain
import PSVFSS.Dpf
import PSVFSS.Sha256.Stream
import PSVFSS.Admission.Agreement
import PSVFSS.Admission.Complete
import PSVFSS.Admission.Outputs
import PSVFSS.Server.Recovery
import PSVFSS.Server.Masking
import PSVFSS.Server.View
import PSVFSS.Server.BtGen
import PSVFSS.Server.Codec
import PSVFSS.Server.Frame
import PSVFSS.Shuffle.Online
import PSVFSS.Shuffle.Layers
import PSVFSS.Shuffle.Benes
import PSVFSS.Shuffle.Translation
import PSVFSS.Bench.VerEval
import PSVFSS.Bench.ClientAccounts
import PSVFSS.Bench.CampaignOnce
import PSVFSS.Lib.MemoDag
import PSVFSS.Fmd.Bristol
import PSVFSS.Fmd.ElGamal
import PSVFSS.Fmd.Fractional
import PSVFSS.Lib.Grid
import PSVFSS.Pps.UnifiedBench
import PSVFSS.Pps.SingleUpdate
import PSVFSS.Lib.Elimination
import PSVFSS.Lib.PowerSums
import PSVFSS.Omr.Recipient
