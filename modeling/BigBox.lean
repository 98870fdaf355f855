import BigBox.Lib.TryRun
import BigBox.FunStruct.Map
import BigBox.Atcmd.AtUrc
import BigBox.Lapi.HttpSend
import BigBox.Lib.Fifo
import BigBox.Buffer.RingbufferForce
import BigBox.Ymodem.Transmit
import BigBox.Ymodem.ReceiveWrites
import BigBox.Rbtree.Ordered
import BigBox.Mempool.AllocatePlaced
import BigBox.Lapi.Net
import BigBox.Ini.InirwSets
import BigBox.Ini.IniConfig1SaveLoad
import BigBox.Cstl.Map
import BigBox.Cstl.Set
import BigBox.Cstl.Multiset
import BigBox.Cstl.Multimap
import BigBox.Cstl.HashmapRefines
import BigBox.Timer.TimerfdHashCalls
import BigBox.Buffer.MessageQueue
import BigBox.Buffer.MessageQueueRuns
import BigBox.Lapi.Event
import BigBox.Ubox.Event
import BigBox.Buffer.Ringbuffer1Runs
import BigBox.Buffer.ByteFifo
import BigBox.Cstl.List
import BigBox.Lapi.Http
import BigBox.Lapi.HttpUrl
import BigBox.Timer.TimerList
import BigBox.Timer.Minheap
import BigBox.Cstl.Vector
import BigBox.Timer.TimerfdRuns
import BigBox.Cstl.CstrRefines
import BigBox.Xml.XmlAttribute
import BigBox.Xml.XmlPath
import BigBox.Xml.XmlRoundTrip
import BigBox.Xml.XmlSafety
import BigBox.Xml.XmlTreeSize
import BigBox.Xml.XmlNode
import BigBox.Ini.StringDicTable
import BigBox.Ini.IniData
import BigBox.Algorithm.Crc
import BigBox.Algorithm.Md5
import BigBox.Algorithm.Sha
import BigBox.Tftp.WriteRequest
import BigBox.Tftp.ReadRequest
import BigBox.Tftp.Address
import BigBox.Tftp.Tries
import BigBox.Ftp.EFtp
import BigBox.Threadpool.Lost
import BigBox.Selector.HeapRuns
import BigBox.Selector.SelectOnce
import BigBox.Buffer.DataBuffer
import BigBox.Libnet.HttpBuffer
import BigBox.Libnet.HttpRequest
import BigBox.Lib.Sextets
import BigBox.Base.Base64
import BigBox.Other.Aes
import BigBox.Cstl.Hashset
import BigBox.Lib.Rearrange
import BigBox.Sort.Qsort
import BigBox.Sort.Partition
import BigBox.Sort.QsortSorts
import BigBox.Sort.Bsearch
import BigBox.Lib.Backtrack
import BigBox.Regex.Regex
import BigBox.Regex.Matches
import BigBox.Regex.ReMatchp
import BigBox.Regex.ReCompile
import BigBox.Event.Darray
import BigBox.Event.Gevent
import BigBox.Event.Select
import BigBox.Event.Poll
import BigBox.Event.Backends
import BigBox.Lib.Loop
import BigBox.Lib.Hex
import BigBox.StrOpt.StrOpt
import BigBox.StrOpt.Percent
import BigBox.StrOpt.Replace
import BigBox.StrOpt.Custom
import BigBox.StrOpt.Base64
import BigBox.StrOpt.RoundTrips
import BigBox.Buffer.Membuf
import BigBox.Lib.Double
import BigBox.Buffer.Sbuf
import BigBox.Buffer.SbufHolds
import BigBox.Buffer.SbufEdits
import BigBox.Buffer.SbufRuns
import BigBox.Modbus.ModbusCrc
import BigBox.Base.MyRand
import BigBox.Lib.Numeral
import BigBox.Base.HexText
import BigBox.Base.HexBytes
import BigBox.Base.TypeC
import BigBox.Lib.Horner
import BigBox.Ymodem.CrcRemainder
import BigBox.Ymodem.SizeText
import BigBox.Ymodem.TransmitRuns
import BigBox.Ymodem.ReceiveCrc
import BigBox.Ini.StringDicAlloc
import BigBox.Lapi.StrbufRuns
import BigBox.Lapi.TimeoutEvent
import BigBox.Ini.IniConfig1Errors
import BigBox.Ini.InirwValues
import BigBox.Ini.IniConfig2Get
import BigBox.Base.TypeCDecimals
import BigBox.Lib.Fields
import BigBox.StrFun.Estrtok
import BigBox.StrFun.Strtoks
import BigBox.StrFun.PathSep
import BigBox.Dhcp.GetOption
import BigBox.Dhcp.Checksum
import BigBox.Libnet.HttpItoa
import BigBox.Protocol.HttpBase64
import BigBox.Protocol.StrReplace
import BigBox.StrOpt.StrEncodeSql
import BigBox.StrOpt.StrParse
import BigBox.StrOpt.PathLev
import BigBox.StrOpt.StrSimplified
import BigBox.EHttp.UrlParser
import BigBox.EHttp.ResponseHeader
import BigBox.Timer.TimerfdHashIter
import BigBox.Timer.TimerfdHashForeach
import BigBox.Lib.ShiftPeriod
import BigBox.Lib.Varint
import BigBox.Mqtt.FixedHeader
import BigBox.Mqtt.RoundTrip
import BigBox.Mqtt.MessageQueue
import BigBox.Mqtt.NextPid
import BigBox.Mqtt.Client
import BigBox.Mqtt.ClientRuns
import BigBox.Mqtt.ClientSafety
