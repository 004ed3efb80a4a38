import RasPiArduino.Transition
import RasPiArduino.Table
import RasPiArduino.Ring
import RasPiArduino.Rewriting
import RasPiArduino.Occurrence
import RasPiArduino.Numerals
import RasPiArduino.Matching
import RasPiArduino.BitFields
import RasPiArduino.ProcessModel
import RasPiArduino.ProcessMoves
import RasPiArduino.ProcessKill
import RasPiArduino.ProcessAgreement
import RasPiArduino.ProcessOutcome
import RasPiArduino.ProcessProgress
import RasPiArduino.ProcessPipes
import RasPiArduino.Cbuf
import RasPiArduino.UdpModel
import RasPiArduino.UdpSend
import RasPiArduino.UdpReceive
import RasPiArduino.Sockets
import RasPiArduino.Client
import RasPiArduino.ClientStream
import RasPiArduino.Server
import RasPiArduino.ServerMoves
import RasPiArduino.ServerDescriptors
import RasPiArduino.ServerAccept
import RasPiArduino.ServerClosing
import RasPiArduino.ServerNotice
import RasPiArduino.Bridge
import RasPiArduino.BridgeOwnership
import RasPiArduino.BridgeCareful
import RasPiArduino.BridgeStops
import RasPiArduino.BridgeAvailable
import RasPiArduino.BridgeRuns
import RasPiArduino.BridgeSlow
import RasPiArduino.BridgeFile
import RasPiArduino.BridgeFileBlocks
import RasPiArduino.Machine
import RasPiArduino.CbufQueue
import RasPiArduino.Shift
import RasPiArduino.Idemonitor
import RasPiArduino.MonitorFifo
import RasPiArduino.MonitorPeers
import RasPiArduino.Console
import RasPiArduino.ConsoleStream
import RasPiArduino.ConsoleSources
import RasPiArduino.Interrupts
import RasPiArduino.InterruptEdges
import RasPiArduino.InterruptPollers
import RasPiArduino.InterruptWords
import RasPiArduino.Pwm
import RasPiArduino.PwmSetup
import RasPiArduino.PwmDivider
import RasPiArduino.Gpio
import RasPiArduino.Delay
import RasPiArduino.Twi
import RasPiArduino.TwoWire
import RasPiArduino.TwoWireSend
import RasPiArduino.TwoWireReceive
import RasPiArduino.CMemory
import RasPiArduino.WString
import RasPiArduino.WStringSpec
import RasPiArduino.WStringInvariant
import RasPiArduino.WStringRuns
import RasPiArduino.WStringCompare
import RasPiArduino.WStringRemove
import RasPiArduino.WStringConcat
import RasPiArduino.WStringReplace
import RasPiArduino.WStringGrow
import RasPiArduino.WStringReplaceAll
import RasPiArduino.WStringSearch
import RasPiArduino.WStringSubstring
import RasPiArduino.WStringOrder
import RasPiArduino.NonIso
import RasPiArduino.WStringNumbers
import RasPiArduino.Print
import RasPiArduino.TimedStream
import RasPiArduino.StreamParse
import RasPiArduino.StreamFind
import RasPiArduino.SystemTimer
import RasPiArduino.ClientPeek
import RasPiArduino.IPAddress
import RasPiArduino.IPAddressText
import RasPiArduino.WMath
import RasPiArduino.BusClock
import RasPiArduino.PulseIn
import RasPiArduino.Ds3231
import RasPiArduino.Ds3231Alarm
import RasPiArduino.NokiaLcd
import RasPiArduino.NokiaLcdCursor
import RasPiArduino.LinkedList
import RasPiArduino.BridgeCleanup
import RasPiArduino.StringArray
import RasPiArduino.ProcessArguments
import RasPiArduino.LittleEndian
import RasPiArduino.Outcome
import RasPiArduino.SdVolume
import RasPiArduino.SdCache
import RasPiArduino.SdTable
import RasPiArduino.SdStore
import RasPiArduino.SdClusters
import RasPiArduino.SdAllocation
import RasPiArduino.SdFile
import RasPiArduino.SdBytes
import RasPiArduino.SdFileRead
import RasPiArduino.SdFileEntry
import RasPiArduino.SdFileWrite
import RasPiArduino.SdFileTruncate
import RasPiArduino.SdFiles
import RasPiArduino.SdReopen
import RasPiArduino.SdNames
import RasPiArduino.SdDirectory
import RasPiArduino.SdInit
import RasPiArduino.SdCalls
